import Mathlib.Data.List.Basic

/-!
# Labelled transition systems

A system is an initial predicate and a partial step function `step : S → L → Option S`. Whatever the
state does not decide (the order in which processes run, what a system call answers) is read from
the label, so a run is a list of labels and can be evaluated (`Lts.exec`).

`Lts.ReachBy ok` holds of the states of the runs whose steps all satisfy `ok`; `ReachBy.invariant`
is the induction rule of the safety theorems, and `ReachBy.map` carries a reachable state along a
simulation. `Lts.Ends` is about the runs from one state: all of them come to an end, and there `Q`
holds. `Lts.Terminates` only says that no run goes on for ever.
-/

/-- A labelled transition system whose labels resolve all nondeterminism. -/
structure Lts (S L : Type) where
  init : S → Prop
  step : S → L → Option S

namespace Lts

variable {S L S' L' : Type}

/-- The states of the runs of `T` in which every step `l`, taken in the state `s`, satisfies
`ok s l`. -/
inductive ReachBy (T : Lts S L) (ok : S → L → Prop) : S → Prop
  | init {s : S} : T.init s → ReachBy T ok s
  | step {s s' : S} {l : L} : ReachBy T ok s → ok s l → T.step s l = some s' → ReachBy T ok s'

/-- The states of all runs of `T`. -/
def Reach (T : Lts S L) : S → Prop :=
  T.ReachBy fun _ _ => True

section
variable {T : Lts S L} {ok ok' : S → L → Prop} {s s' : S}

/-- A predicate that holds initially and is kept by every step allowed by `ok` holds in every state
of a run of such steps. The step may use that its source state is reached. -/
theorem ReachBy.invariant {P : S → Prop} (h : T.ReachBy ok s) (hinit : ∀ s, T.init s → P s)
    (hstep : ∀ s l s', T.ReachBy ok s → P s → ok s l → T.step s l = some s' → P s') : P s := by
  induction h with
  | init hi => exact hinit _ hi
  | step hr hok hs ih => exact hstep _ _ _ hr ih hok hs

theorem ReachBy.mono (h : T.ReachBy ok s) (himp : ∀ s l, ok s l → ok' s l) : T.ReachBy ok' s := by
  induction h with
  | init hi => exact .init hi
  | step _ hok hs ih => exact .step ih (himp _ _ hok) hs

/-- A simulation `f` that answers every step by a step or by standing still carries reachable
states to reachable states. -/
theorem ReachBy.map {T' : Lts S' L'} {ok' : S' → L' → Prop} (f : S → S') (h : T.ReachBy ok s)
    (hinit : ∀ s, T.init s → T'.init (f s))
    (hstep : ∀ s l s', T.ReachBy ok s → ok s l → T.step s l = some s' →
      f s' = f s ∨ ∃ l', ok' (f s) l' ∧ T'.step (f s) l' = some (f s')) : T'.ReachBy ok' (f s) := by
  induction h with
  | init hi => exact .init (hinit _ hi)
  | step hr hok hs ih =>
    rcases hstep _ _ _ hr hok hs with heq | ⟨l', hok', hs'⟩
    · exact heq ▸ ih
    · exact .step ih hok' hs'

end

/-- The state after the labels `ls`, if every one of them is allowed and can be taken. -/
def exec (T : Lts S L) (ok : S → L → Bool) : S → List L → Option S
  | s, [] => some s
  | s, l :: ls => if ok s l then (T.step s l).bind fun s' => exec T ok s' ls else none

theorem ReachBy.exec {T : Lts S L} {ok : S → L → Bool} : ∀ {ls : List L} {s s' : S},
    T.ReachBy (ok · ·) s → T.exec ok s ls = some s' → T.ReachBy (ok · ·) s'
  | [], _, _, hr, h => Option.some.inj h ▸ hr
  | l :: ls, s, s', hr, h => by
    rw [Lts.exec] at h
    split at h
    · next hok =>
      obtain ⟨s₁, h1, h2⟩ := Option.bind_eq_some_iff.1 h
      exact ReachBy.exec (ReachBy.step hr hok h1) h2
    · cases h

/-- A list of allowed labels that leads from an initial state to one that passes a test shows that
some reachable state passes it. -/
theorem reachBy_of_exec {T : Lts S L} {s : S} (hi : T.init s) (ok : S → L → Bool) (ls : List L)
    (p : S → Bool) (h : (T.exec ok s ls).any p = true) :
    ∃ s', T.ReachBy (ok · ·) s' ∧ p s' = true := by
  obtain ⟨s', hs', hp⟩ := (Option.any_eq_true _ _).1 h
  exact ⟨s', (ReachBy.init hi).exec hs', hp⟩

theorem reach_of_exec {T : Lts S L} {s : S} (hi : T.init s) (ls : List L) (p : S → Bool)
    (h : (T.exec (fun _ _ => true) s ls).any p = true) : ∃ s', T.Reach s' ∧ p s' = true := by
  obtain ⟨s', hs', hp⟩ := reachBy_of_exec hi _ ls p h
  exact ⟨s', hs'.mono fun _ _ _ => trivial, hp⟩

/-! ## Runs that end -/

/-- Every run of allowed steps from the state comes to one that is `ended`, the first such state
satisfies `Q`, and no run is stuck before. -/
inductive Ends (T : Lts S L) (ok : S → L → Prop) (ended Q : S → Prop) : S → Prop
  | ended {s : S} : ended s → Q s → Ends T ok ended Q s
  | step {s : S} : ¬ ended s → (∃ l s', ok s l ∧ T.step s l = some s') →
      (∀ l s', ok s l → T.step s l = some s' → Ends T ok ended Q s') → Ends T ok ended Q s

section
variable {T : Lts S L} {ok : S → L → Prop} {ended ended' Q Q' : S → Prop} {s : S}

theorem Ends.bind (h : T.Ends ok ended Q s) (hover : ∀ s, ended' s → ended s)
    (hQ : ∀ s, ended s → Q s → T.Ends ok ended' Q' s) : T.Ends ok ended' Q' s := by
  induction h with
  | ended ho hq => exact hQ _ ho hq
  | step ho hex _ ih => exact .step (fun ho' => ho (hover _ ho')) hex ih

theorem Ends.mono (h : T.Ends ok ended Q s) (hQ : ∀ s, ended s → Q s → Q' s) :
    T.Ends ok ended Q' s :=
  h.bind (fun _ ho => ho) fun s ho hq => .ended ho (hQ s ho hq)

theorem Ends.exists (h : T.Ends ok ended Q s) : ∃ s', ended s' ∧ Q s' := by
  induction h with
  | ended ho hq => exact ⟨_, ho, hq⟩
  | step _ hex _ ih =>
    obtain ⟨l, s', hok, hs⟩ := hex
    exact ih l s' hok hs

theorem Ends.and (h : T.Ends ok ended Q s) (h' : T.Ends ok ended Q' s) :
    T.Ends ok ended (fun s => Q s ∧ Q' s) s := by
  induction h with
  | ended ho hq =>
    cases h' with
    | ended _ hq' => exact .ended ho ⟨hq, hq'⟩
    | step ho' => exact absurd ho ho'
  | step ho hex _ ih =>
    cases h' with
    | ended ho' => exact absurd ho' ho
    | step _ _ hall => exact .step ho hex fun l s' hok hs => ih l s' hok hs (hall l s' hok hs)

end

/-- No run of allowed steps from the state goes on for ever. -/
def Terminates (T : Lts S L) (ok : S → L → Prop) : S → Prop :=
  Acc fun s' s => ∃ l, ok s l ∧ T.step s l = some s'

theorem terminates_of_measure {T : Lts S L} {ok : S → L → Prop} {s : S} {α : Type*}
    [WellFoundedRelation α] {I : S → Prop} (μ : S → α)
    (round : ∀ s l s', I s → ok s l → T.step s l = some s' →
      I s' ∧ WellFoundedRelation.rel (μ s') (μ s)) (hs : I s) : T.Terminates ok s := by
  have wf : WellFounded (WellFoundedRelation.rel : α → α → Prop) := WellFoundedRelation.wf
  generalize hm : μ s = m
  induction m using wf.induction generalizing s with
  | _ m ih =>
    refine Acc.intro s fun s' ⟨l, hok, hstep⟩ => ?_
    obtain ⟨hI, hlt⟩ := round s l s' hs hok hstep
    exact ih (μ s') (hm ▸ hlt) hI rfl

theorem Terminates.ends {T : Lts S L} {ok : S → L → Prop} {ended Q I : S → Prop} {s : S}
    (h : T.Terminates ok s) (hround : ∀ s l s', I s → ok s l → T.step s l = some s' → I s')
    (hover : ∀ s, I s → ended s → Q s)
    (hgo : ∀ s, I s → ¬ended s → ∃ l s', ok s l ∧ T.step s l = some s') (hs : I s) :
    T.Ends ok ended Q s := by
  induction h with
  | intro s _ ih =>
    by_cases ho : ended s
    · exact .ended ho (hover s hs ho)
    · exact .step ho (hgo s hs ho) fun l s' hok hstep =>
        ih s' ⟨l, hok, hstep⟩ (hround s l s' hs hok hstep)

end Lts

/-! ## Logs

What a run has done is a list of entries, the first one first. `Log.Justified P log` says that every
entry satisfies `P` together with the entries before it: a use comes after its check, a step after
the steps it needs. -/

namespace Log

variable {α : Type} {P : List α → α → Prop} {log : List α} {e : α}

/-- Every entry satisfies `P` together with the entries before it. -/
def Justified (P : List α → α → Prop) (log : List α) : Prop :=
  ∀ pre e post, log = pre ++ e :: post → P pre e

@[simp] theorem justified_nil : Justified P [] := by
  intro pre e post h
  simp at h

theorem justified_of_mem (h : ∀ pre, ∀ e ∈ log, P pre e) : Justified P log :=
  fun pre e _ hlog => h pre e (by simp [hlog])

@[simp] theorem justified_concat : Justified P (log ++ [e]) ↔ Justified P log ∧ P log e := by
  constructor
  · intro h
    refine ⟨fun pre d post hlog => ?_, h log e [] rfl⟩
    exact h pre d (post ++ [e]) (by simp [hlog])
  · rintro ⟨hlog, he⟩ pre d post h
    rcases List.eq_nil_or_concat post with rfl | ⟨post', x, rfl⟩
    · obtain ⟨rfl, hd⟩ := List.append_inj' h rfl
      exact (List.cons.inj hd).1 ▸ he
    · have h' : log ++ [e] = (pre ++ d :: post') ++ [x] := by simpa using h
      exact hlog pre d post' (List.append_inj' h' rfl).1

end Log
