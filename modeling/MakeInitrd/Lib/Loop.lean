import Mathlib.Logic.Relation

/-!
# Loops that may not end

A `while` loop is a body that either goes round again with a new state or leaves the loop with a
result. `Loop.Returns body s r` says that the loop entered in state `s` leaves with `r` after
finitely many rounds. `Returns.rule` is the rule of partial correctness, `returns_of_variant` the
one of total correctness.
-/

namespace Loop

universe u v

/-- What one round of the body does. -/
inductive Next (σ : Type u) (ρ : Type v) where
  | again (s : σ)
  | done (r : ρ)

variable {σ : Type u} {ρ : Type v} {body : σ → Next σ ρ} {s s' : σ} {r : ρ}

/-- At most `n` rounds of the loop. -/
def run (body : σ → Next σ ρ) : Nat → σ → Option ρ
  | 0, _ => none
  | n + 1, s =>
    match body s with
    | .again s' => run body n s'
    | .done r => some r

theorem run_mono {n m : Nat} (h : run body n s = some r) (hnm : n ≤ m) : run body m s = some r := by
  induction n generalizing s m with
  | zero => cases h
  | succ n ih =>
    obtain ⟨m, rfl⟩ := Nat.exists_eq_add_of_le' (Nat.lt_of_lt_of_le (Nat.succ_pos n) hnm)
    simp only [run] at h ⊢
    cases hb : body s with
    | again s' =>
      rw [hb] at h
      exact ih h (Nat.le_of_succ_le_succ hnm)
    | done r' =>
      rw [hb] at h
      exact h

/-- The loop entered in `s` leaves with `r`. -/
def Returns (body : σ → Next σ ρ) (s : σ) (r : ρ) : Prop :=
  ∃ n, run body n s = some r

theorem returns_of_done (h : body s = .done r) : Returns body s r :=
  ⟨1, by simp only [run, h]⟩

theorem returns_of_again (h : body s = .again s') (hr : Returns body s' r) : Returns body s r := by
  obtain ⟨n, hn⟩ := hr
  exact ⟨n + 1, by simpa only [run, h] using hn⟩

theorem Returns.cases (h : Returns body s r) :
    body s = .done r ∨ ∃ s', body s = .again s' ∧ Returns body s' r := by
  obtain ⟨n, hn⟩ := h
  cases n with
  | zero => cases hn
  | succ n =>
    simp only [run] at hn
    cases hb : body s with
    | again s' =>
      rw [hb] at hn
      exact .inr ⟨s', rfl, n, hn⟩
    | done r' =>
      rw [hb] at hn
      exact .inl (congrArg Next.done (Option.some.inj hn))

theorem returns_iff_of_again (h : body s = .again s') : Returns body s r ↔ Returns body s' r := by
  refine ⟨fun hr => ?_, returns_of_again h⟩
  rcases hr.cases with hd | ⟨t, ht, hr⟩
  · cases h.symm.trans hd
  · cases h.symm.trans ht
    exact hr

theorem returns_iff_of_done (h : body s = .done r) {r' : ρ} : Returns body s r' ↔ r' = r := by
  refine ⟨fun hr => ?_, fun hr => hr ▸ returns_of_done h⟩
  rcases hr.cases with hd | ⟨t, ht, -⟩
  · cases h.symm.trans hd
    rfl
  · cases h.symm.trans ht

variable {I : σ → Prop} {Q : ρ → Prop}

theorem Returns.rule (h : Returns body s r) (hs : I s)
    (again : ∀ s s', I s → body s = .again s' → I s')
    (done : ∀ s r, I s → body s = .done r → Q r) : Q r := by
  obtain ⟨n, hn⟩ := h
  induction n generalizing s with
  | zero => cases hn
  | succ n ih =>
    simp only [run] at hn
    cases hb : body s with
    | again s' =>
      rw [hb] at hn
      exact ih (again s s' hs hb) hn
    | done r' =>
      rw [hb] at hn
      cases hn
      exact done s r hs hb

/-- The states the loop entered in `s` goes through. -/
def Reaches (body : σ → Next σ ρ) : σ → σ → Prop :=
  Relation.ReflTransGen fun s t => body s = .again t

/-- The states of the first `n` rounds. -/
def trace (body : σ → Next σ ρ) : Nat → σ → List σ
  | 0, _ => []
  | n + 1, s => s ::
    match body s with
    | .again s' => trace body n s'
    | .done _ => []

theorem mem_trace {n : Nat} {t : σ} (h : run body n s = some r) (ht : Reaches body s t) :
    t ∈ trace body n s := by
  induction n generalizing s with
  | zero => cases h
  | succ n ih =>
    rcases ht.cases_head with rfl | ⟨s', hb, ht⟩
    · exact List.mem_cons_self
    · simp only [run, hb] at h
      rw [trace, hb]
      exact List.mem_cons_of_mem _ (ih h ht)

/-- Partial correctness, where a round only has to keep the invariant in states the loop reaches. -/
theorem Returns.rule_reaches (h : Returns body s r) (hs : I s)
    (again : ∀ t t', Reaches body s t → I t → body t = .again t' → I t')
    (done : ∀ t r, I t → body t = .done r → Q r) : Q r :=
  h.rule (I := fun t => Reaches body s t ∧ I t) ⟨.refl, hs⟩
    (fun t t' ht hb => ⟨ht.1.tail hb, again t t' ht.1 ht.2 hb⟩) (fun t r ht hb => done t r ht.2 hb)

theorem Returns.unique (h : Returns body s r) {r' : ρ} (h' : Returns body s r') : r = r' :=
  h.rule (I := fun s => Returns body s r') (Q := fun r => r = r') h'
    (fun _ _ hs hb => (returns_iff_of_again hb).1 hs)
    (fun _ _ hs hb => ((returns_iff_of_done hb).1 hs).symm)

theorem Reaches.returns_iff {t : σ} (h : Reaches body s t) :
    Returns body s r ↔ Returns body t r := by
  induction h with
  | refl => exact Iff.rfl
  | tail _ hb ih => exact ih.trans (returns_iff_of_again hb)

theorem not_returns_of_fixed (h : body s = .again s) : ¬Returns body s r := by
  intro hr
  refine hr.rule (I := fun t => t = s) (Q := fun _ => False) rfl ?_ ?_
  · rintro t t' rfl hb
    cases h.symm.trans hb
    rfl
  · rintro t r rfl hb
    cases h.symm.trans hb

/-- Total correctness: the loop returns if every round that does not leave it lowers `μ`. -/
theorem returns_of_wellFounded {α : Type*} [WellFoundedRelation α]
    (μ : σ → α) (round : ∀ s, I s → (∃ r, body s = .done r ∧ Q r) ∨
      ∃ s', body s = .again s' ∧ I s' ∧ WellFoundedRelation.rel (μ s') (μ s)) (hs : I s) :
    ∃ r, Returns body s r ∧ Q r := by
  -- the induction is on the variant, for every state that has the invariant
  have wf : WellFounded (WellFoundedRelation.rel : α → α → Prop) := WellFoundedRelation.wf
  generalize hm : μ s = m
  induction m using wf.induction generalizing s with
  | _ m ih =>
    rcases round s hs with ⟨r, hb, hq⟩ | ⟨s', hb, hi, hlt⟩
    · exact ⟨r, returns_of_done hb, hq⟩
    · obtain ⟨r, hr, hq⟩ := ih (μ s') (hm ▸ hlt) hi rfl
      exact ⟨r, returns_of_again hb hr, hq⟩

theorem returns_of_variant (μ : σ → Nat) (round : ∀ s, I s → (∃ r, body s = .done r ∧ Q r) ∨
      ∃ s', body s = .again s' ∧ I s' ∧ μ s' < μ s) (hs : I s) : ∃ r, Returns body s r ∧ Q r :=
  returns_of_wellFounded μ round hs

end Loop
