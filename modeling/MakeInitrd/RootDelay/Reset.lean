import MakeInitrd.RootDelay.Exact

/-!
# Resetting the timer

Runs in which a user that begins an operation makes all of its steps before anything else happens
(`finish`). Then the three files always tell how long the delay has been paused since the last
reset, whether the reset came before the pause, during it or after it, as long as the sums need no
more than 64 bits (`deadline_since_reset`).
-/

namespace MakeInitrd.RootDelay

variable {n : Nat}

/-- User `i` makes its steps until it has none, at most as many as the longest operation has. -/
def finish (rootdelay : Int) : Nat → State n → Fin n → State n
  | 0, s, _ => s
  | k + 1, s, i =>
    match next rootdelay s i with
    | none => s
    | some s' => finish rootdelay k s' i

/-- A whole operation, or the clock goes on. `rootdelay_pause` and `rootdelay_unpause` do nothing if
there is nothing to do. -/
inductive Event (n : Nat) where
  | tick (t : Int)
  | pause (i : Fin n)
  | unpause (i : Fin n)
  | reset (i : Fin n)
deriving DecidableEq

/-- The steps of the longest operation: a finalisation with a reset and a new deadline -/
def longest : Nat := 12

def perform (rootdelay : Int) (s : State n) : Event n → Option (State n)
  | .tick t => step rootdelay s (.tick t)
  | .pause i => (step rootdelay s (.start i .pause)).map (finish rootdelay longest · i)
  | .unpause i => (step rootdelay s (.release i)).map (finish rootdelay longest · i)
  | .reset i => (step rootdelay s (.start i .reset)).map (finish rootdelay longest · i)

/-- The time of the last reset, and the time since then during which some user held the pause -/
structure Since where
  reset : Option Int
  held : Int
deriving DecidableEq

def since (s : State n) (g : Since) : Event n → Since
  | .tick t => if s.sharedHeld then { g with held := g.held + (t - s.clock) } else g
  | .reset _ => ⟨some s.clock, 0⟩
  | _ => g

/-- The runs of whole operations, with any deadline at the start or none -/
def atomic (n : Nat) (rootdelay : Int) : Lts (State n × Since) (Event n) where
  init r := (∃ d, r.1.files = ⟨none, none, d⟩) ∧ (∀ i, r.1.pc i = .idle) ∧ 0 ≤ r.1.clock ∧
    r.2 = ⟨none, 0⟩
  step r e := (perform rootdelay r.1 e).map (·, since r.1 r.2 e)

/-! ## What the operations do -/

variable {rootdelay : Int} {s : State n} {i : Fin n}

/-- No user is in the middle of an operation. -/
def Calm (s : State n) : Prop := ∀ i, s.pc i = .idle ∨ s.pc i = .paused

@[simp] theorem goto_goto (s : State n) (i : Fin n) (p q : Pc) :
    (s.goto i p).goto i q = s.goto i q := by
  simp [State.goto]

@[simp] theorem setPauseTime_goto (s : State n) (i : Fin n) (p : Pc) (t : Option Int) :
    (s.goto i p).setPauseTime t = (s.setPauseTime t).goto i p := rfl

@[simp] theorem setReset_goto (s : State n) (i : Fin n) (p : Pc) (t : Option Int) :
    (s.goto i p).setReset t = (s.setReset t).goto i p := rfl

@[simp] theorem setDeadline_goto (s : State n) (i : Fin n) (p : Pc) (t : Option Int) :
    (s.goto i p).setDeadline t = (s.setDeadline t).goto i p := rfl

theorem Calm.goto (h : Calm s) {p : Pc} (hp : p = .idle ∨ p = .paused) : Calm (s.goto i p) :=
  forall_goto (P := fun _ p => p = .idle ∨ p = .paused) (fun j _ => h j) hp

theorem Calm.exclusiveHeld_goto (h : Calm s) {p : Pc} (hp : p.exclusive = false) :
    (s.goto i p).exclusiveHeld = false :=
  exclusiveHeld_eq_false.2 (forall_goto (P := fun _ p => p.exclusive = false)
    (fun j _ => by rcases h j with h | h <;> rw [h] <;> rfl) hp)

theorem finish_pause (h : Calm s) : finish rootdelay longest (s.goto i .lockShared) i =
      (s.setPauseTime (some (s.files.pauseTime.getD s.clock))).goto i .paused := by
  have hfree : (s.goto i .lockShared).exclusiveHeld = false := h.exclusiveHeld_goto rfl
  obtain ⟨clock, ⟨pauseTime, reset, deadline⟩, pc⟩ := s
  cases pauseTime with
  | none => simp [longest, finish, next, hfree]
  | some p =>
    simp only [longest, finish, next, hfree, goto_pc_self, goto_goto, goto_files,
      Option.isSome_some, if_true, Bool.false_eq_true, if_false]
    rfl

theorem finish_unpause_held (h : (s.goto i .lockExclusive).sharedHeld) :
    finish rootdelay longest (s.goto i .lockExclusive) i = s.goto i .idle := by
  simp [longest, finish, next, State.lockFree, h]

def extended (duration : Int) (deadline : Option Int) : Option Int :=
  deadline.map fun d => if duration > 0 ∧ d > 0 then wrap (d + duration) else d

theorem finish_idle {k : Nat} (h : s.pc i = .idle) : finish rootdelay k s i = s := by
  cases k with
  | zero => rfl
  | succ k => simp [finish, next, h]

theorem finish_succ {k : Nat} (s' : State n) (h : next rootdelay s i = some s') :
    finish rootdelay (k + 1) s i = finish rootdelay k s' i := by
  rw [finish, h]

theorem finish_dropStart (k : Nat) :
    finish rootdelay (k + 2) (s.goto i .dropStart) i = (s.setPauseTime none).goto i .idle := by
  rw [finish_succ ((s.setPauseTime none).goto i .unlock) (by simp [next]),
    finish_succ ((s.setPauseTime none).goto i .idle) (by simp [next]), finish_idle (by simp)]

theorem setDeadline_self {t : Option Int} (h : s.files.deadline = t) : s.setDeadline t = s := by
  subst h
  rfl

theorem finish_testDeadline (k : Nat) (start : Int) :
    finish rootdelay (k + 6) (s.goto i (.testDeadline (some start))) i =
      ((s.setDeadline (extended (wrap (s.clock - start)) s.files.deadline)).setPauseTime none).goto
        i .idle := by
  generalize hdur : wrap (s.clock - start) = duration
  cases hd : s.files.deadline with
  | none =>
    rw [finish_succ (s.goto i .dropStart) (by simp [next, hd]), finish_dropStart, extended,
      Option.map_none, setDeadline_self hd]
  | some d =>
    rw [finish_succ (s.goto i (.readEnd start)) (by simp [next, hd])]
    by_cases hlong : duration > 0
    · rw [finish_succ (s.goto i (.loadDeadline duration)) (by simp [next, hdur, hlong])]
      by_cases hpos : d > 0
      · have hnew : extended duration (some d) = some (wrap (d + duration)) := by
          simp [extended, hlong, hpos]
        rw [finish_succ (s.goto i (.storeDeadline (wrap (d + duration))))
          (by simp [next, hd, hpos]),
          finish_succ ((s.setDeadline (some (wrap (d + duration)))).goto i .dropStart)
            (by simp [next]),
          finish_dropStart, hnew]
      · have hsame : extended duration (some d) = some d := by simp [extended, hpos]
        rw [finish_succ (s.goto i .dropStart) (by simp [next, hd, hpos]), finish_dropStart, hsame,
          setDeadline_self hd]
    · have hsame : extended duration (some d) = some d := by simp [extended, hlong]
      rw [finish_succ (s.goto i .dropStart) (by simp [next, hdur, hlong]), finish_dropStart, hsame,
        setDeadline_self hd]

/-- The last holder extends the deadline. -/
theorem finish_unpause_last (h : (s.goto i .lockExclusive).lockFree) {p : Int}
    (hp : s.files.pauseTime = some p) :
    finish rootdelay longest (s.goto i .lockExclusive) i = State.goto { s with
        files := ⟨none, none,
          extended (wrap (s.clock - (laterStart (some p) s.files.reset).getD p)) s.files.deadline⟩
            } i .idle := by
  rw [longest, finish_succ (s.goto i .testStart) (by simp [next, h]),
    finish_succ (s.goto i .loadStart) (by simp [next, hp]),
    finish_succ (s.goto i (.testReset (some p))) (by simp [next, hp])]
  cases hr : s.files.reset with
  | none =>
    rw [finish_succ (s.goto i (.testDeadline (some p))) (by simp [next, hr]), finish_testDeadline]
    simp only [State.setDeadline, State.setPauseTime, hr]
    rfl
  | some r =>
    rw [finish_succ (s.goto i (.loadReset (some p))) (by simp [next, hr]),
      finish_succ (s.goto i (.dropReset (some p) (some r))) (by simp [next, hr])]
    obtain ⟨e, he⟩ : ∃ e, laterStart (some p) (some r) = some e := by
      rw [laterStart]
      split_ifs <;> exact ⟨_, rfl⟩
    rw [finish_succ ((s.setReset none).goto i (.testDeadline (some e))) (by simp [next, he]),
      finish_testDeadline, he]
    rfl

theorem sharedHeld_goto {p : Pc} (hp : p.shared = (s.pc i).shared) :
    (s.goto i p).sharedHeld = s.sharedHeld := by
  have hsame (j : Fin n) : ((s.goto i p).pc j).shared = (s.pc j).shared :=
    forall_goto (P := fun j q => q.shared = (s.pc j).shared) (fun _ _ => rfl) hp j
  simp only [State.sharedHeld, hsame]

/-- What a reset writes -/
theorem finish_reset (h : Calm s) (hi : s.pc i = .idle) :
    finish rootdelay longest (s.goto i .resetClock) i =
      State.goto { s with
        files := ⟨s.files.pauseTime, if s.sharedHeld then some s.clock else s.files.reset,
          some (wrap (s.clock + rootdelay))⟩ } i .idle := by
  let t := s.setDeadline (some (wrap (s.clock + rootdelay)))
  have hcalm : Calm t := h
  have hfree : (t.goto i (.resetProbe s.clock)).lockFree = !s.sharedHeld := by
    have hshared : (t.goto i (.resetProbe s.clock)).sharedHeld = t.sharedHeld :=
      sharedHeld_goto (by rw [show t.pc i = .idle from hi]; rfl)
    rw [State.lockFree, hshared, hcalm.exclusiveHeld_goto rfl, Bool.not_false, Bool.and_true]
    rfl
  rw [longest, finish_succ (s.goto i (.resetStore s.clock)) (by simp [next]),
    finish_succ (t.goto i (.resetProbe s.clock)) (by simp [next, t])]
  cases hheld : s.sharedHeld with
  | true =>
    rw [finish_succ (t.goto i (.resetRecord s.clock)) (by simp [next, hfree, hheld]),
      finish_succ ((t.setReset (some s.clock)).goto i .idle) (by simp [next]),
        finish_idle (by simp)]
    rfl
  | false =>
    rw [finish_succ (t.goto i .resetProbed) (by simp [next, hfree, hheld]),
      finish_succ (t.goto i .idle) (by simp [next]), finish_idle (by simp)]
    rfl

/-! ## The invariant -/

/-- What the files say about the time since the last reset -/
structure Kept (rootdelay : Int) (s : State n) (g : Since) : Prop where
  calm : Calm s
  clock : 0 ≤ s.clock
  past : ∀ r, g.reset = some r → r + g.held ≤ s.clock
  free : s.sharedHeld = false → s.files.pauseTime = none ∧ s.files.reset = none ∧
    ∀ r, g.reset = some r → s.files.deadline = some (r + rootdelay + g.held) ∧ 0 <
      r + rootdelay + g.held
  held : s.sharedHeld → ∃ p, s.files.pauseTime = some p ∧ 0 ≤ p ∧ p ≤ s.clock ∧
    (s.files.reset = none ∨ ∃ r, s.files.reset = some r ∧ g.reset = some r ∧ p ≤ r ∧ r ≤ s.clock) ∧
    ∀ r, g.reset = some r → ∃ d, s.files.deadline = some d ∧ 0 < d ∧
      d + (s.clock - s.files.reset.getD p) = r + rootdelay + g.held

variable {g : Since}

theorem sharedHeld_iff : s.sharedHeld ↔ ∃ j, (s.pc j).shared := by simp [State.sharedHeld]

theorem Kept.tick (h : Kept rootdelay s g) {t : Int} (ht : s.clock ≤ t) :
    Kept rootdelay { s with clock := t } (since s g (.tick t)) := by
  refine ⟨h.calm, h.clock.trans ht, fun r hr => ?_, fun hs => ?_, fun hs => ?_⟩
  · cases hs : s.sharedHeld <;>
      simp only [since, hs, if_true, Bool.false_eq_true, if_false] at hr ⊢ <;>
      have := h.past r hr <;> omega
  · have hs : s.sharedHeld = false := hs
    simpa [since, hs] using h.free hs
  · have hs : s.sharedHeld := hs
    obtain ⟨p, hp, h0, hle, hreset, hall⟩ := h.held hs
    simp only [since, hs, if_true]
    refine ⟨p, hp, h0, hle.trans ht, hreset.imp_right ?_, fun r hr => ?_⟩
    · rintro ⟨r, h₁, h₂, h₃, h₄⟩
      exact ⟨r, h₁, h₂, h₃, h₄.trans ht⟩
    · obtain ⟨d, hd, hpos, heq⟩ := hall r hr
      exact ⟨d, hd, hpos, by omega⟩

theorem Kept.pause (h : Kept rootdelay s g) (i : Fin n) :
    Kept rootdelay ((s.setPauseTime (some (s.files.pauseTime.getD s.clock))).goto i .paused) g := by
  have hheld :
      ((s.setPauseTime (some (s.files.pauseTime.getD s.clock))).goto i .paused).sharedHeld :=
    sharedHeld_iff.2 ⟨i, by simp [Pc.shared]⟩
  refine ⟨h.calm.goto (.inr rfl), h.clock, h.past,
    (fun hs => by rw [hheld] at hs; cases hs), fun _ => ?_⟩
  cases hs : s.sharedHeld with
  | true =>
    obtain ⟨p, hp, hrest⟩ := h.held hs
    exact ⟨p, by simp [State.setPauseTime, hp], hrest⟩
  | false =>
    obtain ⟨hp, hr, hall⟩ := h.free hs
    refine ⟨s.clock, by simp [State.setPauseTime, hp], h.clock, le_rfl, .inl hr, fun r hreset => ?_⟩
    obtain ⟨hd, hpos⟩ := hall r hreset
    refine ⟨_, hd, hpos, ?_⟩
    simp [State.setPauseTime, hr]

theorem laterStart_getD {p : Int} {reset : Option Int}
    (h : reset = none ∨ ∃ r, reset = some r ∧ p ≤ r) :
    (laterStart (some p) reset).getD p = reset.getD p := by
  rcases h with rfl | ⟨r, rfl, hle⟩
  · rfl
  · rw [laterStart]
    split_ifs
    · rfl
    · simp only [Option.getD_some]
      omega

theorem extended_eq {duration d : Int} (hpos : 0 < d) (hle : 0 ≤ duration)
    (hfits : fits (d + duration)) :
    extended duration (some d) = some (d + duration) := by
  rw [extended, Option.map_some]
  split_ifs
  · rw [wrap_of_fits hfits]
  · congr 1
    omega

/-- An unpause keeps the account since the last reset. -/
theorem Kept.unpause (h : Kept rootdelay s g) (hi : s.pc i = .paused) (_ : 0 < rootdelay)
    (hbound : s.clock + rootdelay < 2 ^ 63) :
    Kept rootdelay (finish rootdelay longest (s.goto i .lockExclusive) i) g := by
  have hs : s.sharedHeld := sharedHeld_iff.2 ⟨i, by rw [hi]; rfl⟩
  have hsame : (s.goto i .lockExclusive).sharedHeld = (s.goto i .idle).sharedHeld := by
    have := sharedHeld_goto (s := s.goto i .lockExclusive) (i := i) (p := .idle)
      (by rw [goto_pc_self]; rfl)
    rw [← this, goto_goto]
  obtain ⟨p, hp, h0, hle, hreset, hall⟩ := h.held hs
  cases hother : (s.goto i .lockExclusive).sharedHeld with
  | true =>
    rw [finish_unpause_held hother]
    refine ⟨h.calm.goto (.inl rfl), h.clock, h.past, fun hno => ?_,
      fun _ => ⟨p, hp, h0, hle, hreset, hall⟩⟩
    rw [← hsame, hother] at hno
    cases hno
  | false =>
    have hfree : (s.goto i .lockExclusive).lockFree := by
      rw [State.lockFree, hother, h.calm.exclusiveHeld_goto rfl]
      rfl
    rw [finish_unpause_last hfree hp,
      laterStart_getD (hreset.imp_right fun h => h.imp fun r h => ⟨h.1, h.2.2.1⟩)]
    refine ⟨h.calm.goto (.inl rfl), h.clock, h.past, fun _ => ⟨rfl, rfl, fun r hr => ?_⟩,
      fun hyes => ?_⟩
    · obtain ⟨d, hd, hdpos, heq⟩ := hall r hr
      obtain ⟨hstart, hpast⟩ : 0 ≤ s.files.reset.getD p ∧ s.files.reset.getD p ≤ s.clock := by
        rcases hreset with hnone | ⟨r, hsome, -, hpr, hr⟩
        · rw [hnone]; exact ⟨h0, hle⟩
        · rw [hsome]; exact ⟨h0.trans hpr, hr⟩
      have hsince := h.past r hr
      have hdur : fits (s.clock - s.files.reset.getD p) := decide_eq_true ⟨by omega, by omega⟩
      have hsum : fits (d + (s.clock - s.files.reset.getD p)) := decide_eq_true ⟨by omega, by omega⟩
      refine ⟨?_, by omega⟩
      simp only [goto_files, hd, wrap_of_fits hdur, extended_eq hdpos (by omega) hsum, ← heq]
    · have : (s.goto i .idle).sharedHeld := hyes
      rw [← hsame, hother] at this
      cases this

/-- A reset starts the account anew. -/
theorem Kept.reset (h : Kept rootdelay s g) (hi : s.pc i = .idle) (hpos : 0 < rootdelay)
    (hbound : s.clock + rootdelay < 2 ^ 63) :
    Kept rootdelay (finish rootdelay longest (s.goto i .resetClock) i) ⟨some s.clock, 0⟩ := by
  have hclock := h.clock
  have hsame : (s.goto i .idle).sharedHeld = s.sharedHeld := sharedHeld_goto (by rw [hi])
  rw [finish_reset h.calm hi, wrap_of_fits (decide_eq_true ⟨by omega, hbound⟩)]
  refine ⟨h.calm.goto (.inl rfl), h.clock, ?_, fun hno => ?_, fun hyes => ?_⟩
  · rintro r ⟨⟩
    exact (Int.add_zero _).le
  · have hno : s.sharedHeld = false := hsame ▸ hno
    obtain ⟨hp, hr, -⟩ := h.free hno
    refine ⟨hp, by simp [hno, hr], ?_⟩
    rintro r ⟨⟩
    exact ⟨by simp, by dsimp only; omega⟩
  · have hyes : s.sharedHeld := hsame ▸ hyes
    obtain ⟨p, hp, h0, hle, -⟩ := h.held hyes
    refine ⟨p, hp, h0, hle, .inr ⟨s.clock, by simp [hyes], rfl, hle, le_rfl⟩, ?_⟩
    rintro r ⟨⟩
    refine ⟨s.clock + rootdelay, rfl, by omega, ?_⟩
    simp only [goto_files, goto_clock, hyes, if_true, Option.getD_some]
    omega

/-- Every event keeps the account. -/
theorem Kept.perform {e : Event n} {s' : State n} (h : Kept rootdelay s g) (hpos : 0 < rootdelay)
    (hbound : s.clock + rootdelay < 2 ^ 63) (hstep : RootDelay.perform rootdelay s e = some s') :
    Kept rootdelay s' (since s g e) := by
  cases e with
  | tick t =>
    simp only [RootDelay.perform, step] at hstep
    split_ifs at hstep with hle
    cases hstep
    exact h.tick hle
  | pause i =>
    obtain ⟨s₁, hs₁, rfl⟩ := Option.map_eq_some_iff.1 hstep
    rw [step] at hs₁
    split_ifs at hs₁ with hi
    cases hs₁
    rw [Op.start, finish_pause h.calm]
    exact h.pause i
  | unpause i =>
    obtain ⟨s₁, hs₁, rfl⟩ := Option.map_eq_some_iff.1 hstep
    rw [step] at hs₁
    split_ifs at hs₁ with hi
    cases hs₁
    exact h.unpause hi hpos hbound
  | reset i =>
    obtain ⟨s₁, hs₁, rfl⟩ := Option.map_eq_some_iff.1 hstep
    rw [step] at hs₁
    split_ifs at hs₁ with hi
    cases hs₁
    exact h.reset hi hpos hbound

/-- The time and the delay together need no more than 64 bits. -/
def early (rootdelay : Int) (r : State n × Since) : Bool := r.1.clock + rootdelay < 2 ^ 63

/-- Whenever nobody holds the pause there is no record of a reset, and after a reset the deadline is
the time of the reset, the delay and the time for which the pause has been held since then. -/
def Accounted (rootdelay : Int) (r : State n × Since) : Prop :=
  (∀ i, r.1.pc i ≠ .paused) → r.1.files.reset = none ∧
    ∀ t, r.2.reset = some t → r.1.files.deadline = some (t + rootdelay + r.2.held)

/-- After a reset the deadline is that of the reset and the time held since. -/
theorem deadline_since_reset (n : Nat) (rootdelay : Int) (hpos : 0 < rootdelay)
    (r : State n × Since)
    (hreach : (atomic n rootdelay).ReachBy (fun r _ => early rootdelay r) r) :
    Accounted rootdelay r := by
  have hkept : Kept rootdelay r.1 r.2 := by
    refine hreach.invariant (P := fun r => Kept rootdelay r.1 r.2) (fun r hr => ?_)
      fun r e r' _ ih hearly hs => ?_
    · obtain ⟨⟨d, hfiles⟩, hidle, hclock, hg⟩ := hr
      have hnone (t : Int) (ht : r.2.reset = some t) : False := by
        rw [hg] at ht
        cases ht
      refine ⟨fun i => .inl (hidle i), hclock, fun t ht => (hnone t ht).elim,
        fun _ => ⟨by rw [hfiles], by rw [hfiles], fun t ht => (hnone t ht).elim⟩, fun hs => ?_⟩
      obtain ⟨i, hi⟩ := sharedHeld_iff.1 hs
      rw [hidle i] at hi
      cases hi
    · obtain ⟨s', hs', rfl⟩ := Option.map_eq_some_iff.1 hs
      exact ih.perform hpos (of_decide_eq_true hearly) hs'
  intro hfree
  have hno : r.1.sharedHeld = false :=
    sharedHeld_eq_false.2 fun i => by rw [(hkept.calm i).resolve_right (hfree i)]; rfl
  obtain ⟨-, hreset, hall⟩ := hkept.free hno
  exact ⟨hreset, fun t ht => (hall t ht).1⟩

def idleAtZero (n : Nat) : State n × Since := (⟨0, ⟨none, none, none⟩, fun _ => .idle⟩, ⟨none, 0⟩)

theorem init_idleAtZero (n : Nat) (rootdelay : Int) : (atomic n rootdelay).init (idleAtZero n) :=
  ⟨⟨none, rfl⟩, fun _ => rfl, le_rfl, rfl⟩

/-- The timer is reset at 40 during a pause from 20 to 50, and again paused from 60 to 65. -/
def resetDuringPause : List (Event 2) :=
  [.tick 20, .pause 0, .tick 40, .reset 1, .tick 50, .unpause 0, .tick 60, .pause 1,
    .tick 65, .unpause 1]

theorem deadline_since_reset_paused :
    ∃ r, (atomic 2 60).ReachBy (fun r _ => early 60 r) r ∧ (∀ i, r.1.pc i ≠ .paused) ∧
      r.2.reset = some 40 ∧
      r.2.held = 15 ∧ r.1.files.reset = none ∧ r.1.files.deadline = some (40 + 60 + r.2.held) := by
  obtain ⟨r, hr, hp⟩ := Lts.reachBy_of_exec (init_idleAtZero 2 60)
    (fun r _ => early 60 r) resetDuringPause
    (fun r => decide ((∀ i, r.1.pc i ≠ .paused) ∧ r.2.reset = some 40 ∧ r.2.held = 15))
      (by decide +kernel)
  obtain ⟨hfree, hreset, hheld⟩ := of_decide_eq_true hp
  obtain ⟨hnone, hdeadline⟩ := deadline_since_reset 2 60 (by decide) r hr hfree
  exact ⟨r, hr, hfree, hreset, hheld, hnone, hdeadline 40 hreset⟩

/-- A reset at 10 with the greatest delay that the shell can hold: the sum wraps around. -/
theorem not_deadline_since_reset :
    ∃ r, (atomic 1 (2 ^ 63 - 1)).Reach r ∧ r.1.files.deadline = some (-9223372036854775799) ∧
      ¬Accounted (2 ^ 63 - 1) r := by
  obtain ⟨r, hr, hp⟩ := Lts.reach_of_exec (init_idleAtZero 1 (2 ^ 63 - 1)) [.tick 10, .reset 0]
    (fun r => decide ((∀ i, r.1.pc i ≠ .paused) ∧ r.2 = ⟨some 10, 0⟩ ∧
      r.1.files.deadline = some (-9223372036854775799))) (by decide +kernel)
  obtain ⟨hfree, hg, hd⟩ := of_decide_eq_true hp
  refine ⟨r, hr, hd, fun h => ?_⟩
  have := (h hfree).2 10 (by rw [hg])
  rw [hd, hg] at this
  exact absurd this (by decide)

end MakeInitrd.RootDelay
