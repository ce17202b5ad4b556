import MakeInitrd.Put.Event

/-!
# Rounds

`Tidy` and `Laid` hold in every state of the rounds of a run whose steps find the destination clear
(`story_of_reach`). In a round that installs nothing the file system does not change, so when the
last round ends every file without a mark has no parent directory (`InRound`).
-/

namespace MakeInitrd.Put

open Posix CMem List

section
variable {cfg : Setup} {fs₀ : Fs} {s s' : State} {jobs t t' : Nat} {p q : Item}
  {stage stage' : Stage} {l l' : Loc} {i dfd : Nat} {dst : Bytes} {ph ph' : Phase}

/-- What the next file leaves to be looked at. -/
theorem Phase.pop_cases (h : ph.pop = some (p, ph')) :
    (∃ todo, ph = .dirs (p :: todo) ∧ ph' = .dirs todo) ∨
      (∃ todo, ph = .pool (p :: todo) ∧ ph' = .pool todo) ∨
      ∃ e todo, ph = .hardlinks (e :: todo) ∧ p = e.1 ∧ ph' = .hardlinks todo := by
  unfold pop at h
  split at h <;> cases h
  · exact .inl ⟨_, rfl, rfl⟩
  · exact .inr (.inl ⟨_, rfl, rfl⟩)
  · exact .inr (.inr ⟨_, _, rfl, rfl, rfl⟩)

theorem Phase.todo_of_pop (h : ph.pop = some (p, ph')) : ph.todo = p :: ph'.todo := by
  obtain ⟨_, rfl, rfl⟩ | ⟨_, rfl, rfl⟩ | ⟨_, _, rfl, rfl, rfl⟩ := pop_cases h <;> rfl

theorem Phase.InTurn.pop (hph : ph.InTurn cfg) (h : ph.pop = some (p, ph')) : ph'.InTurn cfg := by
  obtain ⟨_, rfl, rfl⟩ | ⟨_, rfl, rfl⟩ | ⟨_, _, rfl, rfl, rfl⟩ := pop_cases h <;>
    exact (suffix_cons _ _).trans hph

theorem Phase.takesPart_of_pop (h : ph.pop = some (p, ph')) :
    ph'.TakesPart cfg jobs t ↔ ph.TakesPart cfg jobs t := by
  obtain ⟨_, rfl, rfl⟩ | ⟨_, rfl, rfl⟩ | ⟨_, _, rfl, rfl, rfl⟩ := pop_cases h <;> rfl

theorem Phase.InTurn.todo (hnodup : cfg.files.Nodup) (h : ph.InTurn cfg) :
    ph.todo.Nodup ∧ ∀ p ∈ ph.todo, p ∈ cfg.files := by
  have hc := classified cfg
  have hall := hc.perm.nodup_iff.2 hnodup
  have hsub {todo c : List Item} (hsuffix : todo <:+ c) (hc : c.Nodup)
      (hmem : ∀ p ∈ c, p ∈ cfg.files) : todo.Nodup ∧ ∀ p ∈ todo, p ∈ cfg.files :=
    ⟨hc.sublist hsuffix.sublist, fun p hp => hmem p (hsuffix.subset hp)⟩
  cases ph with
  | dirs todo => exact hsub h hall.of_append_left.of_append_left fun p => hc.mem_dirs
  | pool todo => exact hsub h hall.of_append_left.of_append_right fun p => hc.mem_nonDirs
  | hardlinks todo =>
    obtain ⟨before, hbefore⟩ := h
    refine hsub ⟨before.map Prod.fst, ?_⟩ hall.of_append_right fun p hp => ?_
    · rw [← hbefore, map_append]
      rfl
    · obtain ⟨e, he, rfl⟩ := mem_map.1 hp
      exact hc.mem_hardlinks he
  | _ => exact ⟨.nil, nofun⟩

/-! ## Threads stay apart -/

theorem Tidy.congr (h : Tidy cfg jobs s) (fs : Fs) (methods : Methods) :
    Tidy cfg jobs { s with fs := fs, methods := methods } :=
  { h with }

theorem State.job_goto (t' : Nat) :
    (s.goto t p stage).job t' = if t' = t then some (p, stage) else s.job t' :=
  Function.update_apply ..

theorem State.job_leave (t' : Nat) : (s.leave t).job t' = if t' = t then none else s.job t' :=
  Function.update_apply ..

theorem exists_job_of_goto {stage'' : Stage} (hjob : s.job t = some (p, stage))
    (h : (s.goto t p stage').job t' = some (q, stage'')) : ∃ stage, s.job t' = some (q, stage) := by
  rw [State.job_goto] at h
  split at h
  · next ht =>
    cases h
    exact ⟨stage, ht ▸ hjob⟩
  · exact ⟨stage'', h⟩

/-- The thread of a file goes on, and the others do what they did. -/
theorem State.job_after_goto {stage'' : Stage} (hjob : s.job t = some (p, stage))
    (hq : s.job t' = some (q, stage'')) (stage' : Stage) :
    (q = p ∧ stage'' = stage ∧ (s.goto t p stage').job t' = some (p, stage')) ∨
      (s.goto t p stage').job t' = some (q, stage'') := by
  rw [State.job_goto]
  split
  · next ht =>
    subst ht
    cases hq.symm.trans hjob
    exact .inl ⟨rfl, rfl, rfl⟩
  · exact .inr hq

/-- Only the thread that leaves its file has nothing to do. -/
theorem State.job_after_leave {stage'' : Stage} (hjob : s.job t = some (p, stage))
    (hq : s.job t' = some (q, stage'')) :
    (q = p ∧ stage'' = stage) ∨ (s.leave t).job t' = some (q, stage'') := by
  rw [State.job_leave]
  split
  · next ht =>
    subst ht
    cases hq.symm.trans hjob
    exact .inl ⟨rfl, rfl⟩
  · exact .inr hq

theorem job_of_leave (h : (s.leave t).job t' = some (q, stage)) :
    t' ≠ t ∧ s.job t' = some (q, stage) := by
  rw [State.job_leave] at h
  split at h
  · cases h
  · next ht => exact ⟨ht, h⟩

section
variable (h : Tidy cfg jobs s)
include h

/-- The thread goes on with its file. -/
theorem Tidy.goto (hjob : s.job t = some (p, stage)) : Tidy cfg jobs (s.goto t p stage') where
  __ := h
  busy t' q _ hq := by
    obtain ⟨stage, hq⟩ := exists_job_of_goto hjob hq
    exact h.busy t' q stage hq
  distinct t₁ t₂ q _ _ h₁ h₂ := by
    obtain ⟨stage₁, h₁⟩ := exists_job_of_goto hjob h₁
    obtain ⟨stage₂, h₂⟩ := exists_job_of_goto hjob h₂
    exact h.distinct t₁ t₂ q stage₁ stage₂ h₁ h₂
  takesPart t' ht' := by
    obtain ⟨⟨q, stage'⟩, hq⟩ := Option.ne_none_iff_exists'.1 ht'
    obtain ⟨stage, hq⟩ := exists_job_of_goto hjob hq
    exact h.takesPart t' (hq ▸ nofun)

theorem Tidy.leave : Tidy cfg jobs (s.leave t) where
  __ := h
  busy t' q stage hq := h.busy t' q stage (job_of_leave hq).2
  distinct t₁ t₂ q stage₁ stage₂ h₁ h₂ :=
    h.distinct t₁ t₂ q stage₁ stage₂ (job_of_leave h₁).2 (job_of_leave h₂).2
  takesPart t' ht' := by
    obtain ⟨⟨q, stage'⟩, hq⟩ := Option.ne_none_iff_exists'.1 ht'
    exact h.takesPart t' ((job_of_leave hq).2 ▸ nofun)

/-- The thread marks its file as installed. -/
theorem Tidy.finish (hjob : s.job t = some (p, stage)) : Tidy cfg jobs (s.finish t p) where
  mem q hq := by
    rcases mem_cons.1 hq with rfl | hq
    · exact (h.busy t q stage hjob).1
    · exact h.mem q hq
  nodup := nodup_cons.2 ⟨(h.busy t p stage hjob).2.1, h.nodup⟩
  count := congrArg (· + 1) h.count
  busy t' q stage' hq := by
    obtain ⟨ht, hq'⟩ := job_of_leave hq
    obtain ⟨hmem, hnot, htodo⟩ := h.busy t' q stage' hq'
    refine ⟨hmem, fun hin => ?_, htodo⟩
    rcases mem_cons.1 hin with rfl | hin
    · exact ht (h.distinct t' t q stage' stage hq' hjob)
    · exact hnot hin
  distinct := h.leave.distinct
  inTurn := h.inTurn
  takesPart := h.leave.takesPart

theorem Tidy.pass (hpop : s.phase.pop = some (p, ph)) : Tidy cfg jobs { s with phase := ph } where
  __ := h
  busy t q stage hq := by
    obtain ⟨hmem, hnot, htodo⟩ := h.busy t q stage hq
    rw [Phase.todo_of_pop hpop] at htodo
    exact ⟨hmem, hnot, fun hin => htodo (.tail _ hin)⟩
  inTurn := h.inTurn.pop hpop
  takesPart t ht := (Phase.takesPart_of_pop hpop).2 (h.takesPart t ht)

/-- A thread that takes a file is the only one with it. -/
theorem Tidy.take (hnodup : cfg.files.Nodup) (hpart : s.phase.TakesPart cfg jobs t)
    (hpop : s.phase.pop = some (p, ph)) (hp : p ∉ s.installed) :
    Tidy cfg jobs ({ s with phase := ph }.goto t p stage) := by
  have hpass := h.pass hpop
  have htodo := Phase.todo_of_pop hpop
  obtain ⟨htodo_nodup, hmem⟩ := h.inTurn.todo hnodup
  rw [htodo] at htodo_nodup hmem
  -- nobody else has taken the file, since it was still to be looked at
  have hother {t' : Nat} {stage' : Stage} (h' : s.job t' = some (p, stage')) : False := by
    refine (h.busy t' p stage' h').2.2 ?_
    rw [htodo]
    exact .head _
  exact {
    hpass with
    busy := fun t' q stage' hq => by
      rw [State.job_goto] at hq
      split at hq
      · cases hq
        exact ⟨hmem p (.head _), hp, (nodup_cons.1 htodo_nodup).1⟩
      · exact hpass.busy t' q stage' hq
    distinct := fun t₁ t₂ q stage₁ stage₂ h₁ h₂ => by
      rw [State.job_goto] at h₁ h₂
      split at h₁ <;> split at h₂
      · next ht₁ ht₂ => exact ht₁.trans ht₂.symm
      · cases h₁
        exact (hother h₂).elim
      · cases h₂
        exact (hother h₁).elim
      · exact h.distinct t₁ t₂ q stage₁ stage₂ h₁ h₂
    takesPart := fun t' ht' => by
      rw [State.job_goto] at ht'
      split at ht'
      · next ht =>
        subst ht
        exact (Phase.takesPart_of_pop hpop).2 hpart
      · exact hpass.takesPart t' ht' }

theorem Tidy.enter (hidle : ∀ t, s.job t = none) (hph : ph.InTurn cfg) (n : Nat) :
    Tidy cfg jobs { s with phase := ph, prevInstalled := n } where
  __ := h
  busy t _ _ hq := nomatch (hidle t).symm.trans hq
  distinct t _ _ _ _ h₁ := nomatch (hidle t).symm.trans h₁
  inTurn := hph
  takesPart t ht := absurd (hidle t) ht

end

/-! ## Objects stay where they are -/

theorem State.Held.goto (hjob : s.job t = some (p, stage))
    (hdfd : stage.dfd ≠ none → stage'.dfd ≠ none) (h : s.Held q) : (s.goto t p stage').Held q := by
  refine h.imp_right ?_
  rintro ⟨t', stage'', hjob', hdfd'⟩
  rcases State.job_after_goto hjob hjob' stage' with ⟨rfl, rfl, h'⟩ | h'
  · exact ⟨t', stage', h', hdfd hdfd'⟩
  · exact ⟨t', stage'', h', hdfd'⟩

theorem State.Held.leave (hjob : s.job t = some (p, stage)) (hdfd : stage.dfd = none)
    (h : s.Held q) : (s.leave t).Held q := by
  refine h.imp_right ?_
  rintro ⟨t', stage'', hjob', hdfd'⟩
  rcases State.job_after_leave hjob hjob' with ⟨-, rfl⟩ | h'
  · exact absurd hdfd hdfd'
  · exact ⟨t', stage'', h', hdfd'⟩

theorem State.Held.finish (hjob : s.job t = some (p, stage)) (h : s.Held q) :
    (s.finish t p).Held q := by
  rcases h with hq | ⟨t', stage'', hjob', hdfd'⟩
  · exact .inl (.tail _ hq)
  · rcases State.job_after_leave hjob hjob' with ⟨rfl, -⟩ | h'
    · exact .inl (.head _)
    · exact .inr ⟨t', stage'', h', hdfd'⟩

/-- What a step has to show: it adds objects, each for a file that is held from then on. -/
theorem Laid.next (h : Laid cfg fs₀ s) (hgrow : s.fs.Grows s'.fs)
    (hold : ∀ i < fs₀.next, s'.fs.inodes i = s.fs.inodes i)
    (hnew : ∀ l i, s'.fs.names l = some i → s.fs.names l = none → ∃ p ∈ cfg.files,
      cfg.slot s'.fs p = .ok l ∧ s'.Held p)
    (hheld : ∀ p, s.Held p → s'.Held p)
    (hplaced : ∀ p ∈ s'.installed, ∃ l i, PlacedAt cfg fs₀ s'.fs p l i)
    (hshared : ∀ p ∈ s'.installed, p ∉ s.installed → ∀ l i, PlacedAt cfg fs₀ s'.fs p l i →
      fs₀.next ≤ i → ∀ q ∈ s'.installed, ∀ l', PlacedAt cfg fs₀ s'.fs q l' i → q.stat = p.stat)
    (hfits : ∀ t p stage, s'.job t = some (p, stage) → stage.Fits cfg fs₀ s'.fs s'.installed p) :
    Laid cfg fs₀ s' where
  grows := h.grows.trans hgrow
  old i hi := (hold i hi).trans (h.old i hi)
  owned l i hi hnone := by
    cases hl : s.fs.names l with
    | none => exact hnew l i hi hl
    | some j =>
      obtain ⟨p, hp, hslot, hwho⟩ := h.owned l j hl hnone
      exact ⟨p, hp, hgrow.below.slot hslot, hheld p hwho⟩
  placed := hplaced
  shared p q l l' i hp hq hpl hql hi := by
    by_cases hp' : p ∈ s.installed
    · by_cases hq' : q ∈ s.installed
      · obtain ⟨_, _, hpo⟩ := h.placed p hp'
        obtain ⟨_, _, hqo⟩ := h.placed q hq'
        exact h.shared p q l l' i hp' hq' (hpo.back hgrow hpl) (hqo.back hgrow hql) hi
      · exact (hshared q hq hq' l' i hql hi p hp l hpl).symm
    · exact hshared p hp hp' l i hpl hi q hq l' hql
  fits := hfits

/-- A step that leaves the file system as it is -/
theorem Laid.same (h : Laid cfg fs₀ s) (hfs : s'.fs = s.fs)
    (hinst : ∀ p ∈ s.installed, p ∈ s'.installed) (hheld : ∀ p, s.Held p → s'.Held p)
    (hplaced : ∀ p ∈ s'.installed, p ∉ s.installed → ∃ l i,
      PlacedAt cfg fs₀ s.fs p l i ∧ i < fs₀.next)
    (hfits : ∀ t p stage, s'.job t = some (p, stage) → s.job t ≠ some (p, stage) →
      stage.Fits cfg fs₀ s.fs s.installed p) : Laid cfg fs₀ s' := by
  refine h.next (hfs ▸ .refl _) (fun i _ => by rw [hfs]) (fun l i hi hnone => ?_) hheld
    (fun p hp => ?_) (fun p hp hp' l i hpl hi => ?_) fun t p stage hjob => ?_
  · rw [hfs, hnone] at hi
    cases hi
  · rw [hfs]
    by_cases hp' : p ∈ s.installed
    · exact h.placed p hp'
    · obtain ⟨l, i, hpl, -⟩ := hplaced p hp hp'
      exact ⟨l, i, hpl⟩
  · obtain ⟨l₁, i₁, hpl₁, hlt⟩ := hplaced p hp hp'
    rw [hfs] at hpl
    cases (hpl₁.unique hpl).2
    exact absurd hi (not_le.2 hlt)
  · rw [hfs]
    by_cases hjob' : s.job t = some (p, stage)
    · exact (h.fits t p stage hjob').mono (.refl _) hinst (fun _ _ => rfl) fun _ _ _ => id
    · exact (hfits t p stage hjob hjob').mono (.refl _) hinst (fun _ _ => rfl) fun _ _ _ => id

section
variable {x : Inode} {fs : Fs} {installed installed' : List Item}

theorem PlacedAt.create (h : PlacedAt cfg fs₀ fs p l i) (hl' : fs.Free l') :
    PlacedAt cfg fs₀ (fs.create l' x hl') p l i :=
  h.mono (Fs.grows_create hl') (by rw [Fs.inodes_create_of_lt hl' (fs.lt_next l i h.names)])

theorem Stage.Fits.create (h : stage.Fits cfg fs₀ fs installed p) (hl' : fs.Free l')
    (hinst : ∀ q ∈ installed, q ∈ installed') :
    stage.Fits cfg fs₀ (fs.create l' x hl') installed' p := by
  refine h.mono (Fs.grows_create hl') hinst (fun dfd hdfd => ?_) fun dfd l'' hdfd hl'' => ?_
  · obtain ⟨-, l, dst, hopen⟩ := h.opened hdfd
    rw [Fs.inodes_create_of_lt hl' (fs.lt_next l dfd hopen.names)]
  · obtain ⟨-, l, dst, hopen⟩ := h.opened hdfd
    by_cases hne : l'' = l'
    · -- the new inode is not the one that is being copied to
      rw [hne, Fs.names_create_self] at hl''
      cases hl''
      exact absurd (fs.lt_next l _ hopen.names) (lt_irrefl _)
    · rwa [Fs.names_create_of_ne hl' hne] at hl''

theorem Laid.fresh (h : Laid cfg fs₀ s) (hl : s.fs.Free l) : fs₀.names l = none := by
  cases hold : fs₀.names l with
  | none => rfl
  | some j => cases (h.grows.names l j hold).symm.trans hl.empty

theorem names_create_new (hl : fs.Free l) {l₁ : Loc} (hi : (fs.create l x hl).names l₁ = some i)
    (hnone : fs.names l₁ = none) : l₁ = l := by
  by_contra hne
  rw [Fs.names_create_of_ne hl hne, hnone] at hi
  cases hi

theorem finish_shared (hjob : s.job t = some (p, stage)) (h : Laid cfg fs₀ s) {methods : Methods}
    (hgrow : s.fs.Grows fs) (hself : PlacedAt cfg fs₀ fs p l i)
    (hother : ∀ q l', q ∈ s.installed → PlacedAt cfg fs₀ s.fs q l' i → q.stat = p.stat) :
    ∀ p' ∈ ({ s with fs := fs, methods := methods }.finish t p).installed, p' ∉ s.installed →
      ∀ l i, PlacedAt cfg fs₀ fs p' l i → fs₀.next ≤ i →
      ∀ q ∈ ({ s with fs := fs, methods := methods }.finish t p).installed, ∀ l',
        PlacedAt cfg fs₀ fs q l' i → q.stat = p'.stat := by
  intro p' hp' hnot l₁ i₁ hpl _ q hq l' hql
  rcases mem_cons.1 hp' with rfl | hp'
  · rcases mem_cons.1 hq with rfl | hq
    · rfl
    · cases (hself.unique hpl).2
      obtain ⟨_, _, hqo⟩ := h.placed q hq
      exact hother q l' hq (hqo.back hgrow hql)
  · exact absurd hp' hnot

section
variable (h : Laid cfg fs₀ s) (htidy : Tidy cfg jobs s) (hjob : s.job t = some (p, stage))
include h htidy hjob

/-- A call makes an object at a free place. -/
theorem Laid.made (hslot : cfg.slot s.fs p = .ok l) (hl : s.fs.Free l)
    (hx : x.object = cfg.copyOf fs₀ p) :
    Laid cfg fs₀ ({ s with fs := s.fs.create l x hl }.finish t p) := by
  have hgrow := Fs.grows_create (x := x) hl
  have hself : PlacedAt cfg fs₀ (s.fs.create l x hl) p l s.fs.next :=
    ⟨hgrow.below.slot hslot, Fs.names_create_self hl,
      .inl ⟨h.fresh hl, h.grows.next, (congrArg _ (Fs.inodes_create_self hl)).trans hx⟩⟩
  refine h.next hgrow (fun i hi => Fs.inodes_create_of_lt hl (hi.trans_le h.grows.next))
    (fun l₁ i hi hnone => ?_) (fun q hq => hq.finish hjob) (fun q hq => ?_)
    (finish_shared hjob h hgrow hself fun q l' hq hplaced => ?_) fun t' q stage' hq => ?_
  · cases names_create_new hl hi hnone
    exact ⟨p, (htidy.busy t p stage hjob).1, hgrow.below.slot hslot, .inl (.head _)⟩
  · rcases mem_cons.1 hq with rfl | hq
    · exact ⟨l, s.fs.next, hself⟩
    · obtain ⟨l', i, hplaced⟩ := h.placed q hq
      exact ⟨l', i, hplaced.create hl⟩
  · exact absurd (s.fs.lt_next l' _ hplaced.names) (lt_irrefl _)
  · exact (h.fits t' q stage' (job_of_leave hq).2).create hl fun _ => .tail _

/-- `creat` makes an empty file at a free place. -/
theorem Laid.opened (hdfd : stage.dfd = none) (hreg : p.stat.type = .reg)
    (hslot : cfg.slot s.fs p = .ok l)
    (hl : s.fs.Free l) (hx : x.object = ⟨.reg [], p.stat.perm, cfg.uid, cfg.gid⟩) :
    Laid cfg fs₀
      ({ s with fs := s.fs.create l x hl }.goto t p (.allocate p.stat.ino s.fs.next)) := by
  have hgrow := Fs.grows_create (x := x) hl
  refine h.next hgrow (fun i hi => Fs.inodes_create_of_lt hl (hi.trans_le h.grows.next))
    (fun l₁ i hi hnone => ?_) (fun q hq => hq.goto hjob fun hne => absurd hdfd hne)
    (fun q hq => ?_) (fun q hq hq' => absurd hq hq') fun t' q stage' hq => ?_
  · cases names_create_new hl hi hnone
    refine ⟨p, (htidy.busy t p stage hjob).1, hgrow.below.slot hslot,
      .inr ⟨t, .allocate p.stat.ino s.fs.next, ?_, Option.some_ne_none _⟩⟩
    rw [State.job_goto, if_pos rfl]
  · obtain ⟨l', i, hplaced⟩ := h.placed q hq
    exact ⟨l', i, hplaced.create hl⟩
  · rw [State.job_goto] at hq
    split at hq
    · cases hq
      refine ⟨hreg, rfl, l, hgrow.below.slot hslot, Fs.names_create_self hl, fun l' hl' => ?_,
        h.fresh hl, h.grows.next, (congrArg _ (Fs.inodes_create_self hl)).trans hx⟩
      by_contra hne
      rw [State.goto, Fs.names_create_of_ne hl hne] at hl'
      exact absurd (s.fs.lt_next l' _ hl') (lt_irrefl _)
    · exact (h.fits t' q stage' hq).create hl fun _ => id

end

end

section
variable (hlaid : Laid cfg fs₀ s) (htidy : Tidy cfg jobs s) (hclear : Clear cfg fs₀ s.fs)

include htidy hclear

section
variable (h : OpenedAt cfg fs₀ s.fs p l dfd dst) (hjob : s.job t = some (p, stage))
include h hjob

theorem OpenedAt.ne_placed (hq : q ∈ s.installed) (hplaced : PlacedAt cfg fs₀ s.fs q l' i) :
    i ≠ dfd := by
  rintro rfl
  cases h.sole l' hplaced.names
  obtain ⟨hmem, hnot, -⟩ := htidy.busy t p stage hjob
  cases hclear.apart p q l hmem (htidy.mem q hq) h.slot hplaced.slot
  exact hnot hq

theorem OpenedAt.ne_opened {dfd' : Nat} {dst' : Bytes} (hjob' : s.job t' = some (q, stage'))
    (hopen : OpenedAt cfg fs₀ s.fs q l' dfd' dst') (ht : t' ≠ t) : dfd' ≠ dfd := by
  rintro rfl
  cases h.sole l' hopen.names
  cases hclear.apart p q l (htidy.busy t p stage hjob).1 (htidy.busy t' q stage' hjob').1
    h.slot hopen.slot
  exact ht (htidy.distinct t' t p stage' stage hjob' hjob)

end

include hlaid

section
variable (h : OpenedAt cfg fs₀ s.fs p l dfd dst) (hjob : s.job t = some (p, stage)) (dst' : Bytes)
include h hjob dst'

theorem placed_setContent (hq : q ∈ s.installed) :
    ∃ l i, PlacedAt cfg fs₀ (s.fs.setContent dfd dst') q l i := by
  obtain ⟨l', i, hplaced⟩ := hlaid.placed q hq
  have hne := h.ne_placed htidy hclear hjob hq hplaced
  exact ⟨l', i,
    hplaced.mono (Fs.grows_setContent dfd dst') (by rw [Fs.inodes_setContent_of_ne hne])⟩

theorem fits_setContent {installed : List Item} (hinst : ∀ q ∈ s.installed, q ∈ installed)
    (hjob' : s.job t' = some (q, stage')) (ht : t' ≠ t) :
    stage'.Fits cfg fs₀ (s.fs.setContent dfd dst') installed q := by
  have hfits := hlaid.fits t' q stage' hjob'
  refine hfits.mono (Fs.grows_setContent dfd dst') hinst (fun dfd' hdfd' => ?_) fun _ _ _ => id
  obtain ⟨-, l', dst'', hopen⟩ := hfits.opened hdfd'
  rw [Fs.inodes_setContent_of_ne (h.ne_opened htidy hclear hjob hjob' hopen ht)]

end

omit hlaid htidy hclear in
theorem OpenedAt.setContent (h : OpenedAt cfg fs₀ s.fs p l dfd dst) (dst' : Bytes) :
    OpenedAt cfg fs₀ (s.fs.setContent dfd dst') p l dfd dst' where
  slot := (Fs.grows_setContent dfd dst').below.slot h.slot
  names := h.names
  sole := h.sole
  fresh := h.fresh
  new := h.new
  object := by
    rw [Fs.object_setContent_self, h.object,
      show (s.fs.inodes dfd).body = .reg dst from congrArg Object.body h.object]
    rfl

omit hlaid htidy hclear in
theorem old_setContent (h : OpenedAt cfg fs₀ s.fs p l dfd dst) (dst' : Bytes) {i : Nat}
    (hi : i < fs₀.next) : (s.fs.setContent dfd dst').inodes i = s.fs.inodes i :=
  Fs.inodes_setContent_of_ne (hi.trans_le h.new).ne dst'

/-- A step of a copy that is not its last -/
theorem Laid.copying {dst' : Bytes} {fs : Fs} {methods : Methods} {c : Copy}
    (hjob : s.job t = some (p, stage)) (hdfd : stage.dfd = some dfd)
    (h : OpenedAt cfg fs₀ s.fs p l dfd dst)
    (hfs : fs = s.fs ∧ dst' = dst ∨ fs = s.fs.setContent dfd dst')
    (hinv : c.Inv (fs₀.inodes p.stat.ino).body.content dst') :
    Laid cfg fs₀ ({ s with fs := fs, methods := methods }.goto t p (.copy p.stat.ino dfd c)) := by
  have hreg := ((hlaid.fits t p stage hjob).opened hdfd).1
  have hheld (q : Item) (hq : s.Held q) : (s.goto t p (.copy p.stat.ino dfd c)).Held q :=
    hq.goto hjob fun _ => Option.some_ne_none _
  rcases hfs with ⟨rfl, rfl⟩ | rfl
  · refine hlaid.same rfl (fun _ => id) hheld (fun q hq hq' => absurd hq hq')
      fun t' q stage' hq hne => ?_
    rw [State.job_goto] at hq
    split at hq
    · cases hq
      exact ⟨hreg, rfl, l, _, h, hinv⟩
    · exact absurd hq hne
  · refine hlaid.next (Fs.grows_setContent dfd dst') (fun i hi => old_setContent h dst' hi)
      (fun l₁ i hi hnone => by cases hnone.symm.trans hi) hheld
      (fun q hq => placed_setContent hlaid htidy hclear h hjob dst' hq)
      (fun q hq hq' => absurd hq hq') fun t' q stage' hq => ?_
    rw [State.job_goto] at hq
    split at hq
    · cases hq
      exact ⟨hreg, rfl, l, dst', h.setContent dst', hinv⟩
    · next ht => exact fits_setContent hlaid htidy hclear h hjob dst' (fun _ => id) hq ht

/-- The last step of a copy -/
theorem Laid.copied {methods : Methods} (hjob : s.job t = some (p, stage))
    (hreg : p.stat.type = .reg) (h : OpenedAt cfg fs₀ s.fs p l dfd dst) :
    Laid cfg fs₀ ({ s with
      fs := s.fs.setContent dfd (fs₀.inodes p.stat.ino).body.content
      methods := methods }.finish t p) := by
  have hgrow : s.fs.Grows (s.fs.setContent dfd (fs₀.inodes p.stat.ino).body.content) :=
    Fs.grows_setContent dfd _
  have hopen := h.setContent (fs₀.inodes p.stat.ino).body.content
  have hself : PlacedAt cfg fs₀ (s.fs.setContent dfd _) p l dfd :=
    ⟨hopen.slot, hopen.names, .inl ⟨h.fresh, h.new, hopen.object.trans (by
      simp only [Setup.copyOf, hreg])⟩⟩
  refine hlaid.next hgrow (fun i hi => old_setContent h _ hi)
    (fun l₁ i hi hnone => by cases hnone.symm.trans hi) (fun q hq => hq.finish hjob)
    (fun q hq => ?_)
    (finish_shared hjob hlaid hgrow hself fun q l' hq hplaced => ?_) fun t' q stage' hq => ?_
  · rcases mem_cons.1 hq with rfl | hq
    · exact ⟨l, dfd, hself⟩
    · exact placed_setContent hlaid htidy hclear h hjob _ hq
  · exact absurd rfl (h.ne_placed htidy hclear hjob hq hplaced)
  · obtain ⟨ht, hq'⟩ := job_of_leave hq
    exact fits_setContent hlaid htidy hclear h hjob _ (fun _ => .tail _) hq' ht

/-- `link` gives the copy one more name. -/
theorem Laid.linked {l₀ : Loc} {hi : i < s.fs.next} (hjob : s.job t = some (p, stage))
    (hq : q ∈ s.installed) (hreg : p.stat.type = .reg) (hstat : q.stat = p.stat)
    (hplaced : PlacedAt cfg fs₀ s.fs q l₀ i) (hslot : cfg.slot s.fs p = .ok l) (hl : s.fs.Free l) :
    Laid cfg fs₀ ({ s with fs := s.fs.addName l i hl hi }.finish t p) := by
  have hgrow := Fs.grows_addName hl hi
  have hqreg : q.stat.type = .reg := hstat ▸ hreg
  obtain ⟨hnew, hmade⟩ : fs₀.next ≤ i ∧ (s.fs.inodes i).object = cfg.copyOf fs₀ q := by
    rcases hplaced.made with ⟨-, hmade⟩ | ⟨-, hdir, -⟩
    · exact hmade
    · cases hdir.symm.trans hqreg
  have hcopy : cfg.copyOf fs₀ q = cfg.copyOf fs₀ p := by
    simp only [Setup.copyOf, hreg, hstat]
  have hself : PlacedAt cfg fs₀ (s.fs.addName l i hl hi) p l i :=
    ⟨hgrow.below.slot hslot, Fs.names_addName_self hl hi, .inl ⟨hlaid.fresh hl, hnew,
      (Fs.object_addName hl hi i).trans (hmade.trans hcopy)⟩⟩
  refine hlaid.next hgrow (fun j hj => Fs.inodes_addName_of_ne hl hi (hj.trans_le hnew).ne)
    (fun l₁ j hj hnone => ?_) (fun r hr => hr.finish hjob) (fun r hr => ?_)
    (finish_shared hjob hlaid hgrow hself fun r l' hr hplaced' => ?_) fun t' r stage' hr => ?_
  · have heq : l₁ = l := by
      by_contra hne
      rw [State.finish, Fs.names_addName_of_ne hl hi hne, hnone] at hj
      cases hj
    subst heq
    exact ⟨p, (htidy.busy t p stage hjob).1, hgrow.below.slot hslot, .inl (.head _)⟩
  · rcases mem_cons.1 hr with rfl | hr
    · exact ⟨l, i, hself⟩
    · obtain ⟨l', j, hplaced'⟩ := hlaid.placed r hr
      exact ⟨l', j, hplaced'.mono hgrow (Fs.object_addName hl hi j)⟩
  · exact (hlaid.shared q r l₀ l' i hq hr hplaced hplaced' hnew).trans hstat
  · obtain ⟨-, hr'⟩ := job_of_leave hr
    have hfits := hlaid.fits t' r stage' hr'
    refine hfits.mono hgrow (fun _ => .tail _) (fun dfd _ => Fs.object_addName hl hi dfd)
      fun dfd l'' hdfd hl'' => ?_
    by_cases hne : l'' = l
    · -- the linked inode belongs to an installed file, so nobody copies to it
      obtain ⟨-, l', dst', hopen⟩ := hfits.opened hdfd
      subst hne
      rw [State.finish, Fs.names_addName_self] at hl''
      cases hl''
      exact absurd rfl (hopen.ne_placed htidy hclear hr' hq hplaced)
    · rwa [State.finish, Fs.names_addName_of_ne hl hi hne] at hl''

end

/-! ## Rounds that install nothing -/

/-- The files that are still to be looked at in this round. -/
def Phase.rest (cfg : Setup) : Phase → List Item
  | .dirs todo => todo ++ cfg.collector.nonDirs ++ cfg.collector.hardlinks.map Prod.fst
  | .pool todo => todo ++ cfg.collector.hardlinks.map Prod.fst
  | .hardlinks todo => todo.map Prod.fst
  | _ => []

/-- Nothing has been made in this round. -/
def State.Quiet (s : State) : Prop :=
  s.count = s.prevInstalled ∧ ∀ t p stage, s.job t = some (p, stage) → stage.dfd = none

/-- The file is still to be installed in this round, or is being installed. -/
def State.Pending (cfg : Setup) (s : State) (p : Item) : Prop :=
  p ∈ s.phase.rest cfg ∨ ∃ t stage, s.job t = some (p, stage)

/-- `main` is in a round. -/
def Phase.Running : Phase → Prop
  | .uninstalled | .done | .exit => False
  | _ => True

/-- The invariant of the rounds. In a round that has made nothing, a file that was tried in vain has
no parent directory. -/
structure InRound (cfg : Setup) (fs₀ : Fs) (jobs : Nat) (s : State) : Prop where
  running : s.phase.Running
  tidy : Tidy cfg jobs s
  laid : Laid cfg fs₀ s
  le : s.prevInstalled ≤ s.count
  tried : s.Quiet → ∀ p ∈ cfg.files, p ∉ s.installed → ¬s.Pending cfg p →
    cfg.slot s.fs p = .error .noent

theorem Phase.running_of_pop (h : ph.pop = some (p, ph')) : ph'.Running := by
  obtain ⟨_, rfl, rfl⟩ | ⟨_, rfl, rfl⟩ | ⟨_, _, rfl, rfl, rfl⟩ := pop_cases h <;> trivial

theorem Phase.rest_of_pop (h : ph.pop = some (p, ph')) : ph.rest cfg = p :: ph'.rest cfg := by
  obtain ⟨_, rfl, rfl⟩ | ⟨_, rfl, rfl⟩ | ⟨_, _, rfl, rfl, rfl⟩ := pop_cases h <;> rfl

/-! ### What is pending -/

section
variable {fs : Fs} {methods : Methods}

section
variable (hjob : s.job t = some (p, stage))
include hjob

theorem State.Quiet.of_goto (hdfd : stage.dfd = none)
    (h : ({ s with fs := fs, methods := methods }.goto t p stage').Quiet) : s.Quiet := by
  refine ⟨h.1, fun t' q stage'' hq => ?_⟩
  rcases State.job_after_goto hjob hq stage' with ⟨-, rfl, -⟩ | h'
  · exact hdfd
  · exact h.2 t' q stage'' h'

theorem State.Pending.goto (h : s.Pending cfg q) :
    ({ s with fs := fs, methods := methods }.goto t p stage').Pending cfg q := by
  refine h.imp_right ?_
  rintro ⟨t', stage'', hq⟩
  rcases State.job_after_goto hjob hq stage' with ⟨rfl, -, h'⟩ | h'
  · exact ⟨t', stage', h'⟩
  · exact ⟨t', stage'', h'⟩

theorem State.Quiet.of_leave (hdfd : stage.dfd = none) (h : (s.leave t).Quiet) : s.Quiet := by
  refine ⟨h.1, fun t' q stage'' hq => ?_⟩
  rcases State.job_after_leave hjob hq with ⟨-, rfl⟩ | h'
  · exact hdfd
  · exact h.2 t' q stage'' h'

theorem State.Pending.leave (hne : q ≠ p) (h : s.Pending cfg q) : (s.leave t).Pending cfg q := by
  refine h.imp_right ?_
  rintro ⟨t', stage'', hq⟩
  rcases State.job_after_leave hjob hq with ⟨rfl, -⟩ | h'
  · exact absurd rfl hne
  · exact ⟨t', stage'', h'⟩

end

theorem State.not_quiet_finish (hle : s.prevInstalled ≤ s.count) :
    ¬({ s with fs := fs, methods := methods }.finish t p).Quiet := by
  intro hquiet
  have hcount : s.count + 1 = s.prevInstalled := hquiet.1
  omega

theorem State.not_quiet_goto (hdfd : stage.dfd ≠ none) :
    ¬({ s with fs := fs, methods := methods }.goto t p stage).Quiet := by
  intro hquiet
  refine hdfd (hquiet.2 t p stage ?_)
  rw [State.job_goto, if_pos rfl]

theorem State.Pending.pass (hpop : s.phase.pop = some (p, ph)) (hne : q ≠ p) (h : s.Pending cfg q) :
    { s with phase := ph }.Pending cfg q := by
  refine h.imp_left fun hrest => ?_
  rw [Phase.rest_of_pop hpop] at hrest
  exact (mem_cons.1 hrest).resolve_left hne

theorem State.job_take (hidle : s.job t = none) {stage' : Stage}
    (hq : s.job t' = some (q, stage')) :
    ({ s with phase := ph }.goto t p stage).job t' = some (q, stage') := by
  rw [State.job_goto, if_neg]
  · exact hq
  · rintro rfl
    cases hidle.symm.trans hq

theorem State.Quiet.of_take (hidle : s.job t = none)
    (h : ({ s with phase := ph }.goto t p stage).Quiet) : s.Quiet :=
  ⟨h.1, fun t' q stage' hq => h.2 t' q stage' (State.job_take hidle hq)⟩

theorem State.Pending.take (hidle : s.job t = none) (hpop : s.phase.pop = some (p, ph))
    (h : s.Pending cfg q) : ({ s with phase := ph }.goto t p stage).Pending cfg q := by
  rcases h with hrest | ⟨t', stage', hq⟩
  · rw [Phase.rest_of_pop hpop] at hrest
    rcases mem_cons.1 hrest with rfl | hrest
    · exact .inr ⟨t, stage, by rw [State.job_goto, if_pos rfl]⟩
    · exact .inl hrest
  · exact .inr ⟨t', stage', State.job_take hidle hq⟩

theorem State.Pending.enter (hph : s.phase = .dirs [] ∧ ph = .pool cfg.collector.nonDirs ∨
      s.phase = .pool [] ∧ ph = .hardlinks cfg.collector.hardlinks) (h : s.Pending cfg q) :
    { s with phase := ph }.Pending cfg q := by
  refine h.imp_left fun hrest => ?_
  rcases hph with ⟨hs, rfl⟩ | ⟨hs, rfl⟩ <;> rw [hs] at hrest <;> exact hrest

theorem State.pending_dirs (hphase : s.phase = .dirs cfg.collector.dirs) (hq : q ∈ cfg.files) :
    s.Pending cfg q := by
  refine .inl ?_
  rw [hphase]
  exact (classified cfg).perm.mem_iff.2 hq

end

section
variable (h : InRound cfg fs₀ jobs s) (hjob : s.job t = some (p, stage))
include h hjob

/-- A call that changes nothing -/
theorem InRound.goto (hdfd : stage.dfd = none)
    (hfits : stage'.Fits cfg fs₀ s.fs s.installed p) :
    InRound cfg fs₀ jobs (s.goto t p stage') where
  running := h.running
  tidy := h.tidy.goto hjob
  laid := by
    refine h.laid.same rfl (fun _ => id) (fun q hq => hq.goto hjob fun hne => absurd hdfd hne)
      (fun q hq hq' => absurd hq hq') fun t' q stage'' hq hne => ?_
    rw [State.job_goto] at hq
    split at hq
    · cases hq
      exact hfits
    · exact absurd hq hne
  le := h.le
  tried hquiet q hq hnot hpending :=
    h.tried (hquiet.of_goto hjob hdfd) q hq hnot fun hp => hpending (hp.goto hjob)

/-- The parent is missing. -/
theorem InRound.leave (hdfd : stage.dfd = none) (hslot : cfg.slot s.fs p = .error .noent) :
    InRound cfg fs₀ jobs (s.leave t) where
  running := h.running
  tidy := h.tidy.leave
  laid := by
    refine h.laid.same rfl (fun _ => id) (fun q hq => hq.leave hjob hdfd)
      (fun q hq hq' => absurd hq hq') fun t' q stage'' hq hne => ?_
    exact absurd (job_of_leave hq).2 hne
  le := h.le
  tried hquiet q hq hnot hpending := by
    by_cases heq : q = p
    · exact heq ▸ hslot
    · exact h.tried (hquiet.of_leave hjob hdfd) q hq hnot fun hp => hpending (hp.leave hjob heq)

/-- The file is installed. -/
theorem InRound.finish {fs : Fs} {methods : Methods}
    (hlaid : Laid cfg fs₀ ({ s with fs := fs, methods := methods }.finish t p)) :
    InRound cfg fs₀ jobs ({ s with fs := fs, methods := methods }.finish t p) where
  running := h.running
  tidy := (h.tidy.congr fs methods).finish hjob
  laid := hlaid
  le := h.le.trans (Nat.le_succ _)
  tried hquiet := absurd hquiet (State.not_quiet_finish h.le)

/-- A step of a copy -/
theorem InRound.copying {fs : Fs} {methods : Methods} (hdfd : stage'.dfd ≠ none)
    (hlaid : Laid cfg fs₀ ({ s with fs := fs, methods := methods }.goto t p stage')) :
    InRound cfg fs₀ jobs ({ s with fs := fs, methods := methods }.goto t p stage') where
  running := h.running
  tidy := (h.tidy.congr fs methods).goto hjob
  laid := hlaid
  le := h.le
  tried hquiet := absurd hquiet (State.not_quiet_goto hdfd)

end

/-- A file that is installed is passed over. -/
theorem InRound.pass (h : InRound cfg fs₀ jobs s) (hpop : s.phase.pop = some (p, ph))
    (hp : p ∈ s.installed) : InRound cfg fs₀ jobs { s with phase := ph } where
  running := Phase.running_of_pop hpop
  tidy := h.tidy.pass hpop
  laid := { h.laid with }
  le := h.le
  tried hquiet q hq hnot hpending :=
    h.tried hquiet q hq hnot fun hp' => hpending (hp'.pass hpop fun heq => hnot (heq ▸ hp))

/-- A thread takes a file. -/
theorem InRound.take (h : InRound cfg fs₀ jobs s) (hnodup : cfg.files.Nodup)
    (hidle : s.job t = none) (hpart : s.phase.TakesPart cfg jobs t)
    (hpop : s.phase.pop = some (p, ph)) (hp : p ∉ s.installed)
    (hfits : stage.Fits cfg fs₀ s.fs s.installed p) :
    InRound cfg fs₀ jobs ({ s with phase := ph }.goto t p stage) where
  running := Phase.running_of_pop hpop
  tidy := h.tidy.take hnodup hpart hpop hp
  laid := by
    refine h.laid.same rfl (fun _ => id) (fun q hq => hq.imp_right ?_)
      (fun q hq hq' => absurd hq hq') fun t' q stage' hq hne => ?_
    · rintro ⟨t', stage', hq', hdfd'⟩
      exact ⟨t', stage', State.job_take hidle hq', hdfd'⟩
    · rw [State.job_goto] at hq
      split at hq
      · cases hq
        exact hfits
      · exact absurd hq hne
  le := h.le
  tried hquiet q hq hnot hpending :=
    h.tried (hquiet.of_take hidle) q hq hnot fun hp' => hpending (hp'.take hidle hpop)

/-- The next part of the round begins. -/
theorem InRound.enter (h : InRound cfg fs₀ jobs s) (hidle : ∀ t, s.job t = none)
    (hph : s.phase = .dirs [] ∧ ph = .pool cfg.collector.nonDirs ∨
      s.phase = .pool [] ∧ ph = .hardlinks cfg.collector.hardlinks) :
    InRound cfg fs₀ jobs { s with phase := ph } where
  running := by rcases hph with ⟨-, rfl⟩ | ⟨-, rfl⟩ <;> trivial
  tidy := by
    refine h.tidy.enter hidle ?_ s.prevInstalled
    rcases hph with ⟨-, rfl⟩ | ⟨-, rfl⟩ <;> exact suffix_rfl
  laid := { h.laid with }
  le := h.le
  tried hquiet q hq hnot hpending :=
    h.tried hquiet q hq hnot fun hp' => hpending (hp'.enter hph)

theorem inTurn_dirs (cfg : Setup) : (Phase.dirs cfg.collector.dirs).InTurn cfg :=
  suffix_rfl

/-- The next round begins. -/
theorem InRound.next (h : InRound cfg fs₀ jobs s) (hidle : ∀ t, s.job t = none) :
    InRound cfg fs₀ jobs
      { s with prevInstalled := s.count, phase := .dirs cfg.collector.dirs } where
  running := trivial
  tidy := h.tidy.enter hidle (inTurn_dirs cfg) s.count
  laid := { h.laid with }
  le := le_rfl
  tried _ _ hq _ hpending := absurd (State.pending_dirs rfl hq) hpending

/-- The first round has just begun. -/
theorem inRound_start (cfg : Setup) (fs₀ : Fs) (jobs : Nat) :
    InRound cfg fs₀ jobs (start cfg fs₀) where
  running := trivial
  tidy :=
    have hidle (t : Nat) : (start cfg fs₀).job t = none := rfl
    { mem := fun _ hp => absurd hp not_mem_nil
      nodup := .nil
      count := rfl
      busy := fun t _ _ h => absurd ((hidle t).symm.trans h) nofun
      distinct := fun t _ _ _ _ h => absurd ((hidle t).symm.trans h) nofun
      inTurn := inTurn_dirs cfg
      takesPart := fun t h => absurd (hidle t) h }
  laid :=
    { grows := .refl fs₀
      old := fun _ _ => rfl
      owned := fun _ _ hi hnone => absurd (hnone.symm.trans hi) nofun
      placed := fun _ hp => absurd hp not_mem_nil
      shared := fun _ _ _ _ _ hp => absurd hp not_mem_nil
      fits := fun _ p stage h => absurd (show none = some (p, stage) from h) nofun }
  le := le_rfl
  tried _ _ hq _ hpending := absurd (State.pending_dirs rfl hq) hpending

/-- The last round is over: nobody installs anything, and this round has marked nothing. -/
structure Over (cfg : Setup) (fs₀ : Fs) (jobs : Nat) (s : State) : Prop where
  inRound : InRound cfg fs₀ jobs s
  idle (t : Nat) : s.job t = none
  phase : s.phase = .hardlinks []
  count : s.count = s.prevInstalled

/-- An event stays in the round, ends it or ends the program. -/
theorem InRound.event (h : InRound cfg fs₀ jobs s) (hnodup : cfg.files.Nodup)
    (hclear : Clear cfg fs₀ s.fs) (hevent : Event cfg fs₀ jobs s t s') :
    InRound cfg fs₀ jobs s' ∨ (Over cfg fs₀ jobs s ∧ s' = endRound cfg s) ∨ Fatal cfg s t ∧
      s' = s.fail := by
  cases hevent with
  | advance hjob hdfd _ hfits => exact .inl (h.goto hjob hdfd hfits)
  | missing hjob hdfd hslot => exact .inl (h.leave hjob hdfd hslot)
  | @skip p _ l i hjob hdfd hi hplaced =>
    refine .inl (h.finish hjob (h.laid.same rfl (fun _ => .tail _) (fun q hq => hq.finish hjob)
      (fun q hq hq' => ?_) fun t' q stage' hq hne => absurd (job_of_leave hq).2 hne))
    rcases mem_cons.1 hq with rfl | hq
    · exact ⟨l, i, hplaced, fs₀.lt_next l i hi⟩
    · exact absurd hq hq'
  | made hjob hdfd hslot hl hx =>
    exact .inl (h.finish hjob (h.laid.made h.tidy hjob hslot hl hx))
  | opened hjob hdfd hreg hslot hl hx =>
    exact .inl
      (h.copying hjob (Option.some_ne_none _) (h.laid.opened h.tidy hjob hdfd hreg hslot hl hx))
  | copying hjob hdfd hopen hfs hinv =>
    exact .inl (h.copying hjob (Option.some_ne_none _)
      (h.laid.copying h.tidy hclear hjob hdfd hopen hfs hinv))
  | copied hjob hdfd hreg hopen =>
    exact .inl (h.finish hjob (h.laid.copied h.tidy hclear hjob hreg hopen))
  | linked hjob hq hreg hstat hplaced hslot hl =>
    exact .inl (h.finish hjob (h.laid.linked h.tidy hclear hjob hq hreg hstat hplaced hslot hl))
  | fatal hfatal => exact .inr (.inr ⟨hfatal, rfl⟩)
  | pass hpop hp => exact .inl (h.pass hpop hp)
  | take hidle hpart hpop hp _ hfits => exact .inl (h.take hnodup hidle hpart hpop hp hfits)
  | enter hidle hph => exact .inl (h.enter hidle hph)
  | ended hidle hphase =>
    by_cases hcount : s.count = s.prevInstalled
    · exact .inr (.inl ⟨⟨h, hidle, hphase, hcount⟩, rfl⟩)
    · unfold endRound
      rw [if_pos hcount]
      exact .inl (h.next hidle)

/-- What a state of a run is whose steps find the condition `C` satisfied; `I` is kept in the
rounds. -/
inductive Story (cfg : Setup) (fs₀ : Fs) (jobs : Nat) (C : State → Nat → Prop) (I : State → Prop) :
    State → Prop
  | inRound {s : State} : InRound cfg fs₀ jobs s → I s → Story cfg fs₀ jobs C I s
  | afterAll {s : State} {t : Nat} : Over cfg fs₀ jobs s → C s t → I s →
    Story cfg fs₀ jobs C I (endRound cfg s)
  | exit {s : State} {t : Nat} : C s t → Fatal cfg s t → Story cfg fs₀ jobs C I s.fail

/-- How the last round ends -/
theorem endRound_cases (hcount : s.count = s.prevInstalled) :
    (s.count < cfg.files.length ∧ endRound cfg s = { s with phase := .uninstalled }) ∨
    cfg.files.length ≤ s.count ∧
      ((cfg.permissionOrder.foldlM (cfg.applyPermissions s.installed) s.fs = none ∧
        endRound cfg s = s.fail) ∨
      ∃ fs, cfg.permissionOrder.foldlM (cfg.applyPermissions s.installed) s.fs = some fs ∧
        endRound cfg s = { s with fs := fs, phase := .done }) := by
  unfold endRound
  rw [if_neg (not_not.2 hcount)]
  split
  · next hlt => exact .inl ⟨hlt, rfl⟩
  · next hle =>
    refine .inr ⟨not_lt.1 hle, ?_⟩
    split
    · next hfold => exact .inl ⟨hfold, rfl⟩
    · next fs hfold => exact .inr ⟨fs, hfold, rfl⟩

theorem endRound_not_running (hcount : s.count = s.prevInstalled) :
    ¬(endRound cfg s).phase.Running := by
  obtain ⟨-, heq⟩ | ⟨-, ⟨-, heq⟩ | ⟨fs, -, heq⟩⟩ := endRound_cases hcount <;> rw [heq] <;> exact id

theorem step_of_not_running {c : Choice} (h : ¬s.phase.Running) : step cfg s t jobs c = none := by
  unfold step
  cases hphase : s.phase with
  | uninstalled | done | exit => rfl
  | _ =>
    rw [hphase] at h
    exact absurd trivial h

/-- The induction rule for the runs of an installation -/
theorem story_of_reach {C : State → Nat → Prop} {I : State → Prop} (hready : Ready cfg fs₀)
    (hC : ∀ s t, C s t → Clear cfg fs₀ s.fs) (hstart : I (start cfg fs₀))
    (hevent : ∀ s t s', InRound cfg fs₀ jobs s → I s → Event cfg fs₀ jobs s t s' →
      InRound cfg fs₀ jobs s' → I s')
    (h : (installation cfg fs₀ jobs).ReachBy (fun s l => C s l.1) s) :
    Story cfg fs₀ jobs C I s := by
  refine h.invariant ?_ fun s₁ l s₂ _ hstory hl hstep => ?_
  · rintro s rfl
    exact .inRound (inRound_start cfg fs₀ jobs) hstart
  · cases hstory with
    | inRound hround hI =>
      have hclear := hC s₁ l.1 hl
      have hev := step_event hready hround.tidy hround.laid hclear hstep
      rcases hround.event hready.nodup hclear hev with hround' | ⟨hover, rfl⟩ | ⟨hfatal, rfl⟩
      · exact .inRound hround' (hevent s₁ l.1 s₂ hround hI hev hround')
      · exact .afterAll hover hl hI
      · exact .exit hl hfatal
    | afterAll hover =>
      cases (step_of_not_running (endRound_not_running hover.count)).symm.trans hstep
    | @exit s₀ =>
      have hnone : step cfg s₀.fail l.1 jobs l.2 = none := step_of_not_running id
      cases hnone.symm.trans hstep

end

end MakeInitrd.Put
