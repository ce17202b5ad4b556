import MakeInitrd.RootDelay.Model

/-!
# How much a pause adds to the deadline

The time that a pause adds is the time from the start that its holders have published to its
finalisation. Another holder may publish a later start, and a lock that is taken before the last
pause is finalised goes on with the start of that pause (`not_deadline_exact`). In a run in which
none of this happens, the deadline grows by the lengths of the pauses (`deadline_exact`). In every
run without a reset it never moves back (`deadline_mono`).
-/

namespace MakeInitrd.RootDelay

variable {n : Nat}

/-! ## Pauses of a run -/

/-- What has to be known about a run: when the first holder got its lock in each of the intervals
with a holder that have not been finalised yet, and by how much the deadline should have grown for
the others. -/
structure Account where
  unsettled : List Int
  grown : Int
deriving DecidableEq

/-- What a step means for the pauses: the first holder gets its lock, or the time of the
finalisation is read. -/
def account (s : State n) (a : Account) : Label n → Account
  | .step i =>
    match s.pc i with
    | .lockShared =>
      if s.sharedHeld || s.exclusiveHeld then a
        else { a with unsettled := a.unsettled ++ [s.clock] }
    | .readEnd _ => ⟨[], a.grown + (a.unsettled.map (s.clock - ·)).sum⟩
    | _ => a
  | _ => a

/-- The runs from a deadline on -/
def system (n : Nat) (rootdelay deadline : Int) : Lts (State n × Account) (Label n) where
  init r := Init deadline r.1 ∧ r.2 = ⟨[], 0⟩
  step r l := (step rootdelay r.1 l).map (·, account r.1 r.2 l)

/-- The timer is not reset. -/
def noReset : Label n → Bool
  | .start _ .reset => false
  | _ => true

/-- The sums that are computed in a finalisation need no more than 64 bits. -/
def bounded (s : State n) : Label n → Bool
  | .step i =>
    match s.pc i with
    | .readEnd start => fits (s.clock - start)
    | .loadDeadline duration => s.files.deadline.all fun d => fits (d + duration)
    | _ => true
  | _ => true

/-- The first holder gets its lock after the last pause has been finalised, and the clock that is
read for the start of a pause still shows the time at which the first holder got its lock. -/
def timely (r : State n × Account) : Label n → Bool
  | .step i =>
    match r.1.pc i with
    | .lockShared => r.1.sharedHeld || r.1.files.pauseTime.isNone
    | .readStart => r.2.unsettled.all (· = r.1.clock)
    | _ => true
  | _ => true

/-- All holders have released their locks and all pauses have been finalised. -/
def Settled (r : State n × Account) : Prop :=
  r.1.sharedHeld = false ∧ r.1.exclusiveHeld = false ∧ r.2.unsettled = []

instance (r : State n × Account) : Decidable (Settled r) := inferInstanceAs (Decidable (_ ∧ _ ∧ _))

/-! ## The invariant -/

/-- The user has read the time of the finalisation and has not removed the start yet. -/
def Pc.settling : Pc → Bool
  | .loadDeadline _ | .storeDeadline _ | .dropStart => true
  | _ => false

/-- The user has not stored the new deadline yet. -/
def Pc.owing : Pc → Bool
  | .loadDeadline _ | .storeDeadline _ => true
  | _ => false

/-- What a user knows at its place, in a run without resets from the deadline `D` on -/
def UserOk (D : Int) (f : Files) (a : Account) : Pc → Prop
  | .publish now => a.unsettled = [now]
  | .paused | .loadStart => f.pauseTime.isSome
  | .testReset start | .testDeadline start => start.isSome ∧ f.pauseTime = start
  | .readEnd start => f.pauseTime = some start
  | .loadDeadline duration =>
    a.unsettled = [] ∧ 0 < duration ∧ f.deadline = some (D + a.grown - duration)
  | .storeDeadline deadline => a.unsettled = [] ∧ deadline = D + a.grown ∧ 0 < deadline
  | .dropStart => a.unsettled = []
  | .unlock => a.unsettled = [] ∧ f.pauseTime = none
  | .loadReset _ | .dropReset _ _ | .resetClock | .resetStore _ | .resetProbe _ | .resetProbed
  | .resetRecord _ | .daemonStore _ => False
  | _ => True

structure Inv (D : Int) (s : State n) (a : Account) : Prop where
  users : ∀ i, UserOk D s.files a (s.pc i)
  /-- a user with the exclusive lock is alone -/
  alone : ∀ i j, (s.pc i).exclusive → (s.pc j).shared = false ∧ ((s.pc j).exclusive → j = i)
  reset : s.files.reset = none
  one : a.unsettled.length ≤ 1
  past : ∀ t ∈ a.unsettled, t ≤ s.clock
  held : ∀ i, (s.pc i).shared → a.unsettled ≠ []
  start : ∀ t, s.files.pauseTime = some t → (∀ i, (s.pc i).settling = false) → a.unsettled = [t]
  absent : s.files.pauseTime = none → (∀ i, (s.pc i).shared = false) → a.unsettled = []
  deadline : (∀ i, (s.pc i).owing = false) → s.files.deadline = some (D + a.grown)
  positive : ∃ d, s.files.deadline = some d ∧ 0 < d

variable {D rootdelay : Int} {s : State n} {a : Account} {i : Fin n} {pc : Pc}

@[simp] theorem goto_pc_self (s : State n) (i : Fin n) (pc : Pc) : (s.goto i pc).pc i = pc :=
  Function.update_self _ _ _

@[simp] theorem goto_pc_of_ne {i j : Fin n} (h : j ≠ i) (pc : Pc) : (s.goto i pc).pc j = s.pc j :=
  Function.update_of_ne h _ _

@[simp] theorem goto_files (s : State n) (i : Fin n) (pc : Pc) : (s.goto i pc).files = s.files :=
  rfl

@[simp] theorem goto_clock (s : State n) (i : Fin n) (pc : Pc) : (s.goto i pc).clock = s.clock :=
  rfl

/-- What holds of the places of all users holds after a move of one if it holds of its new place. -/
theorem forall_goto {P : Fin n → Pc → Prop} (h : ∀ j, j ≠ i → P j (s.pc j)) (hi : P i pc) :
    ∀ j, P j ((s.goto i pc).pc j) := by
  intro j
  by_cases hj : j = i
  · subst hj; simpa using hi
  · simpa [hj] using h j hj

theorem sharedHeld_eq_false : s.sharedHeld = false ↔ ∀ i, (s.pc i).shared = false := by
  simp [State.sharedHeld]

theorem exclusiveHeld_eq_false : s.exclusiveHeld = false ↔ ∀ i, (s.pc i).exclusive = false := by
  simp [State.exclusiveHeld]

theorem shared_of_exclusive (h : pc.exclusive) : pc.shared = false := by
  cases pc <;> first | rfl | cases h

theorem lockFree_iff : s.lockFree ↔ ∀ i, (s.pc i).shared = false ∧ (s.pc i).exclusive = false := by
  simp only [State.lockFree, Bool.and_eq_true, Bool.not_eq_true', sharedHeld_eq_false,
    exclusiveHeld_eq_false, forall_and]

/-- A user may get the exclusive lock if the lock is free, and the shared lock if nobody has the
exclusive one. -/
theorem alone_goto
    (h : ∀ i j, (s.pc i).exclusive → (s.pc j).shared = false ∧ ((s.pc j).exclusive → j = i))
    (hexcl : pc.exclusive → (s.pc i).exclusive ∨ s.lockFree)
    (hshared : pc.shared → (s.pc i).shared ∨ s.exclusiveHeld = false) :
    ∀ j k, ((s.goto i pc).pc j).exclusive →
      ((s.goto i pc).pc k).shared = false ∧ (((s.goto i pc).pc k).exclusive → k = j) := by
  intro j k hj
  by_cases hji : j = i
  · subst hji
    rw [goto_pc_self] at hj
    by_cases hkj : k = j
    · subst hkj
      exact ⟨by rw [goto_pc_self]; exact shared_of_exclusive hj, fun _ => rfl⟩
    · rw [goto_pc_of_ne hkj]
      rcases hexcl hj with he | hfree
      · exact h j k he
      · obtain ⟨h₁, h₂⟩ := lockFree_iff.1 hfree k
        exact ⟨h₁, fun hk => by simp [h₂] at hk⟩
  · rw [goto_pc_of_ne hji] at hj
    by_cases hki : k = i
    · subst hki
      rw [goto_pc_self]
      refine ⟨?_, fun hk => ?_⟩
      · rw [Bool.eq_false_iff]
        intro hs
        rcases hshared hs with hs | hno
        · simp [(h j k hj).1] at hs
        · simp [exclusiveHeld_eq_false.1 hno j] at hj
      · rcases hexcl hk with he | hfree
        · exact (h j k hj).2 he
        · simp [(lockFree_iff.1 hfree j).2] at hj
    · rw [goto_pc_of_ne hki]
      exact h j k hj

/-- The places of the other users after a move of a user to a place that has the same property -/
theorem forall_of_goto {P : Pc → Bool} (hP : P (s.pc i) = P pc)
    (h : ∀ j, P ((s.goto i pc).pc j) = false) (j : Fin n) : P (s.pc j) = false := by
  by_cases hj : j = i
  · subst hj; rw [hP]; simpa using h j
  · simpa [hj] using h j

/-- A step that changes no file -/
theorem Inv.goto (h : Inv D s a) (hok : UserOk D s.files a pc)
    (hshared : pc.shared → (s.pc i).shared)
    (hleave : (s.pc i).shared → pc.shared ∨ s.files.pauseTime.isSome)
    (hexcl : pc.exclusive → (s.pc i).exclusive ∨ s.lockFree)
    (hsettling : (s.pc i).settling = pc.settling) (howing : (s.pc i).owing = pc.owing) :
    Inv D (s.goto i pc) a := by
  refine ⟨forall_goto (fun j _ => h.users j) hok, ?_, h.reset, h.one, h.past, ?_, ?_, ?_,
    ?_, h.positive⟩
  · exact alone_goto h.alone hexcl fun hs => .inl (hshared hs)
  · exact forall_goto (P := fun _ p => p.shared → a.unsettled ≠ []) (fun j _ => h.held j)
      fun hs => h.held i (hshared hs)
  · exact fun t ht hno => h.start t ht (forall_of_goto hsettling hno)
  · intro hnone hno
    refine h.absent hnone fun j => ?_
    by_cases hj : j = i
    · subst hj
      rw [Bool.eq_false_iff]
      intro hs
      rcases hleave hs with hs | hs
      · have := hno j
        simp [hs] at this
      · rw [show s.files.pauseTime = none from hnone] at hs
        cases hs
    · simpa [hj] using hno j
  · exact fun hno => h.deadline (forall_of_goto howing hno)

/-- A step that changes no file and no lock of the user, or that gets the exclusive lock -/
theorem Inv.quiet (h : Inv D s a) {p : Pc} (hpc : s.pc i = p) (hok : UserOk D s.files a pc)
    (hshared : p.shared = pc.shared) (hexcl : pc.exclusive → p.exclusive ∨ s.lockFree)
    (hsettling : p.settling = pc.settling) (howing : p.owing = pc.owing) :
    Inv D (s.goto i pc) a := by
  subst hpc
  exact h.goto hok (fun hs => hshared ▸ hs) (fun hs => .inl (hshared ▸ hs)) hexcl hsettling howing

theorem userOk_of_alone {p : Pc} {f f' : Files} {a a' : Account} (hshared : p.shared = false)
    (hexcl : p.exclusive = false) (h : UserOk D f a p) : UserOk D f' a' p := by
  cases p <;> trivial

theorem users_of_exclusive (h : Inv D s a) (hi : (s.pc i).exclusive) {f : Files} {a' : Account}
    (hok : UserOk D f a' pc) :
    ∀ j, UserOk D f a' ((State.goto { s with files := f } i pc).pc j) := by
  refine forall_goto (s := { s with files := f }) (P := fun _ p => UserOk D f a' p)
    (fun j hj => ?_) hok
  obtain ⟨h₁, h₂⟩ := h.alone i j hi
  exact userOk_of_alone h₁ (Bool.eq_false_iff.2 fun he => hj (h₂ he)) (h.users j)

theorem settling_of_not_exclusive (p : Pc) (_ : p.shared = false) (he : p.exclusive = false) :
    p.settling = false := by
  cases p <;> first | rfl | cases he

theorem owing_of_not_exclusive (p : Pc) (_ : p.shared = false) (he : p.exclusive = false) :
    p.owing = false := by
  cases p <;> first | rfl | cases he

section
variable (h : Inv D s a)
include h

theorem Inv.joinShared (hpc : s.pc i = .lockShared) (hexcl : s.exclusiveHeld = false)
    (hheld : s.sharedHeld) : Inv D (s.goto i .testPauseTime) a := by
  obtain ⟨j, hj⟩ := of_decide_eq_true hheld
  refine ⟨forall_goto (fun j _ => h.users j) trivial, alone_goto h.alone nofun fun _ =>
    .inr hexcl, h.reset, h.one, h.past, ?_, ?_, ?_, ?_, h.positive⟩
  · exact forall_goto (P := fun _ p => p.shared → a.unsettled ≠ []) (fun j _ => h.held j) fun _ =>
      h.held j hj
  · exact fun t ht hno => h.start t ht (forall_of_goto (by rw [hpc]; rfl) hno)
  · intro _ hno
    simpa [Pc.shared] using hno i
  · exact fun hno => h.deadline (forall_of_goto (by rw [hpc]; rfl) hno)

theorem Inv.beginShared (hpc : s.pc i = .lockShared) (hexcl : s.exclusiveHeld = false)
    (hheld : s.sharedHeld = false) (hnone : s.files.pauseTime = none) :
    Inv D (s.goto i .testPauseTime) { a with unsettled := a.unsettled ++ [s.clock] } := by
  have hshared := sharedHeld_eq_false.1 hheld
  have hempty : a.unsettled = [] := h.absent hnone hshared
  rw [hempty]
  refine ⟨?_, alone_goto h.alone nofun fun _ => .inr hexcl, h.reset, le_rfl, ?_, ?_, ?_, ?_,
    ?_, h.positive⟩
  · exact forall_goto (P := fun _ p => UserOk D _ _ p) (fun j _ =>
      userOk_of_alone (hshared j) (exclusiveHeld_eq_false.1 hexcl j) (h.users j)) trivial
  · intro t ht
    simpa using (List.mem_singleton.1 ht).le
  · exact fun _ _ => List.cons_ne_nil _ _
  · intro t ht
    rw [goto_files, hnone] at ht
    cases ht
  · intro _ hno
    simpa [Pc.shared] using hno i
  · exact fun hno => h.deadline (forall_of_goto (by rw [hpc]; rfl) hno)

/-- The start of a pause is published. -/
theorem Inv.publish {now : Int} (hpc : s.pc i = .publish now) :
    Inv D ((s.setPauseTime (some now)).goto i .paused) a := by
  have hone : a.unsettled = [now] := by simpa [UserOk, hpc] using h.users i
  have halone : ∀ j, (s.pc j).exclusive = false := by
    intro j
    rw [Bool.eq_false_iff]
    intro hj
    have := (h.alone j i hj).1
    simp [hpc, Pc.shared] at this
  refine ⟨?_, ?_, h.reset, h.one, h.past, fun _ _ => by simp [hone], ?_, ?_, ?_, h.positive⟩
  · refine forall_goto (s := s.setPauseTime (some now)) (P := fun _ p => UserOk D _ a p)
      (fun j _ => ?_) rfl
    have hu := h.users j
    have he := halone j
    show UserOk D _ a (s.pc j)
    cases hj : s.pc j with
    | publish t => rwa [hj] at hu
    | paused => rfl
    | idle | lockShared | testPauseTime | readStart | lockExclusive | probe
      | daemonProbe | daemonTest
    | daemonClock | daemonDeadline => trivial
    | resetClock | resetStore | resetProbe | resetRecord | daemonStore =>
      rw [hj] at hu; exact hu
    | _ => rw [hj] at he; cases he
  · exact alone_goto (s := s.setPauseTime (some now)) h.alone nofun fun _ => .inl (by
      show (s.pc i).shared
      rw [hpc]; rfl)
  · intro t ht _
    rw [hone]
    exact congrArg (fun x => [x]) (Option.some.inj ht)
  · intro hnone
    cases hnone
  · exact fun hno => h.deadline
      (forall_of_goto (s := s.setPauseTime (some now))
        (by show (s.pc i).owing = _; rw [hpc]; rfl) hno)

/-- A step of the finalisation -/
theorem Inv.settle (hi : (s.pc i).exclusive) {f : Files} {a' : Account} (hpc : pc.exclusive)
    (hok : UserOk D f a' pc) (hreset : f.reset = none) (hempty : a'.unsettled = [])
    (hstart : f.pauseTime = none ∨ pc.settling)
    (hdeadline : pc.owing = false → f.deadline = some (D + a'.grown))
    (hpos : ∃ d, f.deadline = some d ∧ 0 < d) :
    Inv D (State.goto { s with files := f } i pc) a' := by
  refine ⟨users_of_exclusive h hi hok, ?_, hreset, by simp [hempty], by simp [hempty], ?_, ?_,
    fun _ _ => hempty, ?_, hpos⟩
  · exact alone_goto (s := { s with files := f }) h.alone (fun _ => .inl hi) fun hs => by
      rw [shared_of_exclusive hpc] at hs
      cases hs
  · refine forall_goto (s := { s with files := f }) (P := fun _ p => p.shared → a'.unsettled ≠ [])
      (fun j _ hs => ?_) fun hs => ?_
    · have := (h.alone i j hi).1
      rw [show (s.pc j).shared = true from hs] at this
      cases this
    · rw [shared_of_exclusive hpc] at hs
      cases hs
  · intro t ht hno
    rcases hstart with hnone | hsettling
    · rw [goto_files, hnone] at ht
      cases ht
    · have := hno i
      rw [goto_pc_self, hsettling] at this
      cases this
  · intro hno
    exact hdeadline (by simpa using hno i)

/-- No other user is in the middle of a finalisation while a user with the exclusive lock is not. -/
theorem Inv.unsettled_eq (hi : (s.pc i).exclusive) (hs : (s.pc i).settling = false) {t : Int}
    (ht : s.files.pauseTime = some t) : a.unsettled = [t] := by
  refine h.start t ht fun j => ?_
  by_cases hj : j = i
  · exact hj ▸ hs
  · obtain ⟨h₁, h₂⟩ := h.alone i j hi
    exact settling_of_not_exclusive _ h₁ (Bool.eq_false_iff.2 fun he => hj (h₂ he))

theorem Inv.deadline_eq (hi : (s.pc i).exclusive) (ho : (s.pc i).owing = false) :
    s.files.deadline = some (D + a.grown) := by
  refine h.deadline fun j => ?_
  by_cases hj : j = i
  · exact hj ▸ ho
  · obtain ⟨h₁, h₂⟩ := h.alone i j hi
    exact owing_of_not_exclusive _ h₁ (Bool.eq_false_iff.2 fun he => hj (h₂ he))

/-- The end of the pause is read, and its length is due. -/
theorem Inv.readEnd {t : Int} (hpc : s.pc i = .readEnd t) (hfits : fits (s.clock - t)) :
    Inv D (s.goto i (if wrap (s.clock - t) > 0 then .loadDeadline (wrap (s.clock - t))
      else .dropStart))
      ⟨[], a.grown + (a.unsettled.map (s.clock - ·)).sum⟩ := by
  have hi : (s.pc i).exclusive := by rw [hpc]; rfl
  have hstart : s.files.pauseTime = some t := by simpa [UserOk, hpc] using h.users i
  have hone : a.unsettled = [t] := h.unsettled_eq hi (by rw [hpc]; rfl) hstart
  have hdeadline := h.deadline_eq hi (by rw [hpc]; rfl)
  have hpast : t ≤ s.clock := h.past t (by simp [hone])
  have hsum : (a.unsettled.map (s.clock - ·)).sum = s.clock - t := by simp [hone]
  rw [hsum, wrap_of_fits hfits]
  split_ifs with hlong
  · refine h.settle hi rfl ⟨rfl, hlong, ?_⟩ h.reset rfl (.inr rfl) nofun h.positive
    rw [hdeadline]
    congr 1
    dsimp only
    omega
  · refine h.settle hi rfl rfl h.reset rfl (.inr rfl) (fun _ => ?_) h.positive
    rw [hdeadline]
    congr 1
    dsimp only
    omega

/-- Every step of a user keeps the account. -/
theorem Inv.next {s' : State n} (hbounded : bounded s (.step i)) (htimely : timely (s, a) (.step i))
    (hstep : RootDelay.next rootdelay s i = some s') : Inv D s' (account s a (.step i)) := by
  have hu := h.users i
  rw [RootDelay.next] at hstep
  simp only [timely] at htimely
  simp only [bounded] at hbounded
  simp only [account]
  cases hpc : s.pc i <;> simp only [hpc, UserOk] at hu hstep htimely hbounded ⊢
  case idle | paused => cases hstep
  case lockShared =>
    split_ifs at hstep with hexcl
    cases hstep
    have hexcl : s.exclusiveHeld = false := Bool.eq_false_iff.2 hexcl
    cases hheld : s.sharedHeld with
    | true => simpa [hheld] using h.joinShared hpc hexcl hheld
    | false =>
      have hnone : s.files.pauseTime = Option.none := by simpa [hheld] using htimely
      simpa [hexcl] using h.beginShared hpc hexcl hheld hnone
  case testPauseTime =>
    cases hstep
    split_ifs with hsome
    · exact h.quiet hpc hsome rfl nofun rfl rfl
    · exact h.quiet hpc trivial rfl nofun rfl rfl
  case readStart =>
    cases hstep
    refine h.quiet hpc ?_ rfl nofun rfl rfl
    have hne := h.held i (by rw [hpc]; rfl)
    have hone := h.one
    obtain ⟨t, ht⟩ : ∃ t, a.unsettled = [t] := by
      match hun : a.unsettled with
      | [] => exact absurd hun hne
      | [t] => exact ⟨t, rfl⟩
      | _ :: _ :: _ => simp [hun] at hone
    simp only [ht, List.all_cons, List.all_nil, Bool.and_true, decide_eq_true_eq] at htimely
    exact htimely ▸ ht
  case publish now =>
    cases hstep
    exact h.publish hpc
  case readEnd t =>
    cases hstep
    exact h.readEnd hpc hbounded
  case lockExclusive =>
    cases hstep
    split_ifs with hfree
    · exact h.quiet hpc trivial rfl (fun _ => .inr hfree) rfl rfl
    · exact h.quiet hpc trivial rfl nofun rfl rfl
  case testStart =>
    cases hstep
    split_ifs with hsome
    · exact h.quiet hpc hsome rfl (fun _ => .inl rfl) rfl rfl
    · have hnone : s.files.pauseTime = Option.none := by simpa using hsome
      have hno (j : Fin n) : (s.pc j).shared = false := (h.alone i j (by rw [hpc]; rfl)).1
      exact h.quiet hpc ⟨h.absent hnone hno, hnone⟩ rfl (fun _ => .inl rfl) rfl rfl
  case loadStart =>
    cases hstep
    exact h.quiet hpc ⟨hu, rfl⟩ rfl (fun _ => .inl rfl) rfl rfl
  case testReset start =>
    cases hstep
    rw [h.reset]
    exact h.quiet hpc hu rfl (fun _ => .inl rfl) rfl rfl
  case testDeadline start =>
    obtain ⟨t, rfl⟩ := Option.isSome_iff_exists.1 hu.1
    cases hstep
    obtain ⟨d, hd, -⟩ := h.positive
    rw [hd]
    exact h.quiet hpc hu.2 rfl (fun _ => .inl rfl) rfl rfl
  case loadDeadline duration =>
    obtain ⟨hempty, hlong, hd⟩ := hu
    obtain ⟨d, hd', hpos⟩ := h.positive
    obtain rfl : d = D + a.grown - duration := Option.some.inj (hd'.symm.trans hd)
    rw [hd] at hstep hbounded
    cases hstep
    rw [if_pos hpos, wrap_of_fits hbounded]
    exact h.quiet hpc ⟨hempty, by omega, by omega⟩ rfl (fun _ => .inl rfl) rfl rfl
  case storeDeadline deadline =>
    obtain ⟨hempty, rfl, hpos⟩ := hu
    cases hstep
    exact h.settle (by rw [hpc]; rfl) rfl hempty h.reset hempty (.inr rfl) (fun _ => rfl)
      ⟨_, rfl, hpos⟩
  case dropStart =>
    cases hstep
    have hi : (s.pc i).exclusive := by rw [hpc]; rfl
    exact h.settle hi rfl ⟨hu, rfl⟩ h.reset hu (.inl rfl)
      (fun _ => h.deadline_eq hi (by rw [hpc]; rfl)) h.positive
  case probe | daemonProbe =>
    cases hstep
    split_ifs with hfree
    · exact h.quiet hpc trivial rfl (fun _ => .inr hfree) rfl rfl
    · exact h.quiet hpc trivial rfl nofun rfl rfl
  case daemonTest =>
    cases hstep
    split_ifs
    · exact h.quiet hpc trivial rfl nofun rfl rfl
    · exact h.quiet hpc trivial rfl nofun rfl rfl
  case daemonDeadline now =>
    cases hstep
    obtain ⟨d, hd, -⟩ := h.positive
    rw [hd]
    exact h.quiet hpc trivial rfl nofun rfl rfl
  case unlock | probed | daemonProbed | daemonClock =>
    cases hstep
    exact h.quiet hpc trivial rfl nofun rfl rfl

/-- Every step of the system keeps the account. -/
theorem Inv.step {l : Label n} {s' : State n} (hreset : noReset l) (hbounded : bounded s l)
    (htimely : timely (s, a) l) (hstep : RootDelay.step rootdelay s l = some s') :
    Inv D s' (account s a l) := by
  cases l with
  | tick t =>
    rw [RootDelay.step] at hstep
    split_ifs at hstep with hle
    cases hstep
    exact ⟨h.users, h.alone, h.reset, h.one, fun u hu => (h.past u hu).trans hle, h.held,
      h.start, h.absent, h.deadline, h.positive⟩
  | start i op =>
    rw [RootDelay.step] at hstep
    split_ifs at hstep with hpc
    cases hstep
    cases op with
    | reset => cases hreset
    | pause | probe | daemon => exact h.quiet hpc trivial rfl nofun rfl rfl
  | step i => exact h.next hbounded htimely hstep
  | release i =>
    rw [RootDelay.step] at hstep
    split_ifs at hstep with hpc
    cases hstep
    have hsome : s.files.pauseTime.isSome := by simpa [UserOk, hpc] using h.users i
    exact h.goto trivial nofun (fun _ => .inr hsome) nofun (by rw [hpc]; rfl) (by rw [hpc]; rfl)

end

theorem Inv.init (hD : 0 < D) (hinit : Init D s) : Inv D s ⟨[], 0⟩ := by
  obtain ⟨hfiles, hidle⟩ := hinit
  refine ⟨fun i => by
    rw [hidle i]; trivial, fun i j hi => ?_, by rw [hfiles], Nat.zero_le _, nofun, ?_, ?_,
    fun _ _ => rfl, fun _ => by simp [hfiles], ⟨D, by rw [hfiles], hD⟩⟩
  · rw [hidle i] at hi
    cases hi
  · intro i hi
    rw [hidle i] at hi
    cases hi
  · intro t ht
    rw [hfiles] at ht
    cases ht

/-- What every step of a run has to meet -/
def careful (r : State n × Account) (l : Label n) : Bool := noReset l && bounded r.1 l && timely r l

/-- In a run without resets and without overflow in which every start of a pause is published in
time, the deadline has grown by the lengths of the pauses whenever all of them have been finalised.
-/
theorem deadline_exact (n : Nat) (rootdelay D : Int) (hD : 0 < D) (r : State n × Account)
    (hreach : (system n rootdelay D).ReachBy (careful · ·) r) (hsettled : Settled r) :
    r.1.files.deadline = some (D + r.2.grown) := by
  have hinv : Inv D r.1 r.2 := by
    refine hreach.invariant (P := fun r => Inv D r.1 r.2) (fun r hr => ?_)
      fun r l r' _ ih hok hs => ?_
    · rw [hr.2]
      exact Inv.init hD hr.1
    · obtain ⟨s', hs', rfl⟩ := Option.map_eq_some_iff.1 hs
      simp only [careful, Bool.and_eq_true] at hok
      exact ih.step hok.1.1 hok.1.2 hok.2 hs'
  have hno := exclusiveHeld_eq_false.1 hsettled.2.1
  have hshared := sharedHeld_eq_false.1 hsettled.1
  exact hinv.deadline fun i => owing_of_not_exclusive _ (hshared i) (hno i)

/-! ## Runs -/

/-- A deadline and users that do nothing -/
def start (n : Nat) (deadline : Int) : State n × Account :=
  (⟨0, ⟨none, none, some deadline⟩, fun _ => .idle⟩, ⟨[], 0⟩)

theorem init_start (n : Nat) (rootdelay deadline : Int) :
    (system n rootdelay deadline).init (start n deadline) := ⟨⟨rfl, fun _ => rfl⟩, rfl⟩

/-- The steps of a user, one after the other -/
def steps (k : Nat) (i : Fin n) : List (Label n) := List.replicate k (.step i)

instance neZero_two : NeZero 2 := ⟨by decide⟩

/-- A pause from 0 to 20: the second user joins it at 5, and the first one leaves it at 10. -/
def overlapping : List (Label 2) :=
  [.start 0 .pause] ++ steps 4 0 ++ [.tick 5, .start 1 .pause] ++ steps 2 1 ++
    [.tick 10, .release 0] ++
    steps 1 0 ++ [.tick 20, .release 1] ++ steps 10 1

theorem deadline_exact_overlapping :
    ∃ r, (system 2 0 100).ReachBy (careful · ·) r ∧ Settled r ∧ r.2.grown = 20 ∧
      r.1.files.deadline = some (100 + r.2.grown) := by
  obtain ⟨r, hr, hp⟩ := Lts.reachBy_of_exec (init_start 2 0 100) careful overlapping
    (fun r => decide (Settled r ∧ r.2.grown = 20)) (by decide +kernel)
  obtain ⟨hsettled, hgrown⟩ := of_decide_eq_true hp
  exact ⟨r, hr, hsettled, hgrown, deadline_exact 2 0 100 (by decide) r hr hsettled⟩

/-- Both users find no start of the pause at 0; the second one reads the clock and publishes at 10.
The pause ends at 20. -/
def latePublish : List (Label 2) :=
  [.start 0 .pause, .start 1 .pause, .step 0, .step 1, .step 0, .step 1, .step 0, .step 0,
    .tick 10, .step 1,
    .step 1, .release 0, .step 0, .release 1, .tick 20] ++ steps 10 1

/-- The start that the first holder has published is lost, and with it half of the pause. -/
theorem not_deadline_exact :
    ∃ r, (system 2 0 100).ReachBy (fun _ l => noReset l) r ∧ Settled r ∧ r.2.grown = 20 ∧
      r.1.files.deadline ≠ some (100 + r.2.grown) := by
  obtain ⟨r, hr, hp⟩ := Lts.reachBy_of_exec (init_start 2 0 100) (fun _ l => noReset l) latePublish
    (fun r => decide (Settled r ∧ r.2.grown = 20 ∧ r.1.files.deadline ≠ some (100 + r.2.grown)))
    (by decide +kernel)
  exact ⟨r, hr, of_decide_eq_true hp⟩

/-! ## Runs that are not timely -/

/-- What a user that is about to change the deadline knows about it, in a run without resets -/
def Pc.Forth (deadline : Option Int) : Pc → Prop
  | .loadDeadline duration => 0 < duration
  | .storeDeadline new => ∃ d, deadline = some d ∧ d < new
  | .resetClock | .resetStore _ | .daemonStore _ => False
  | _ => True

structure Advances (D : Int) (s : State n) : Prop where
  alone : ∀ i j, (s.pc i).exclusive → (s.pc j).shared = false ∧ ((s.pc j).exclusive → j = i)
  users : ∀ i, (s.pc i).Forth s.files.deadline
  deadline : ∃ d, s.files.deadline = some d ∧ D ≤ d

theorem Advances.goto (h : Advances D s) {f : Files} (hf : f.deadline = s.files.deadline)
    (hok : pc.Forth s.files.deadline) (hexcl : pc.exclusive → (s.pc i).exclusive ∨ s.lockFree)
    (hshared : pc.shared → (s.pc i).shared ∨ s.exclusiveHeld = false) :
    Advances D (State.goto { s with files := f } i pc) :=
  ⟨alone_goto h.alone hexcl hshared, forall_goto (fun j _ => hf ▸ h.users j) (hf ▸ hok),
    hf ▸ h.deadline⟩

theorem Advances.storeDeadline (h : Advances D s) {new : Int} (hpc : s.pc i = .storeDeadline new) :
    Advances D ((s.setDeadline (some new)).goto i .dropStart) := by
  have hi : (s.pc i).exclusive := by rw [hpc]; rfl
  have hu := h.users i
  obtain ⟨d, hd, hle⟩ := h.deadline
  rw [hpc, hd] at hu
  obtain ⟨_, ⟨⟩, hlt⟩ := hu
  refine ⟨alone_goto h.alone (fun _ => .inl hi) nofun, forall_goto (fun j hj => ?_) trivial, new,
    rfl, by omega⟩
  -- another user that is about to store a deadline would have the lock, too
  have hj' : (s.pc j).exclusive = false := Bool.eq_false_iff.2 fun he => hj ((h.alone i j hi).2 he)
  have := h.users j
  cases hp : s.pc j <;> simp_all [Pc.Forth, Pc.exclusive, State.setDeadline]

/-- No step of a user lowers the deadline. -/
theorem Advances.next {s' : State n} (h : Advances D s) (hbounded : bounded s (.step i))
    (hstep : next rootdelay s i = some s') : Advances D s' := by
  have hu := h.users i
  obtain ⟨d, hd, -⟩ := h.deadline
  rw [RootDelay.next] at hstep
  simp only [bounded] at hbounded
  cases hpc : s.pc i <;> simp only [hpc, Pc.Forth] at hu hstep hbounded
  case idle | paused => cases hstep
  case storeDeadline => exact Option.some.inj hstep ▸ h.storeDeadline hpc
  case lockShared =>
    split_ifs at hstep with hexcl
    cases hstep
    exact h.goto rfl trivial nofun fun _ => .inr (Bool.eq_false_iff.2 hexcl)
  case testDeadline start =>
    cases start <;> cases hstep <;> refine h.goto rfl ?_ ?_ ?_ <;>
      simp [hd, hpc, Pc.Forth, Pc.exclusive, Pc.shared]
  case loadDeadline duration =>
    rw [hd] at hstep hbounded
    cases hstep
    rw [wrap_of_fits hbounded]
    refine h.goto rfl ?_ ?_ ?_ <;> split_ifs <;> simp [hd, hpc, Pc.Forth, Pc.exclusive, Pc.shared]
    omega
  all_goals
    cases hstep
    refine h.goto rfl ?_ ?_ ?_ <;> (try split_ifs) <;> simp_all [Pc.Forth, Pc.exclusive, Pc.shared]

theorem Advances.step {l : Label n} {s' : State n} (h : Advances D s) (hreset : noReset l)
    (hbounded : bounded s l) (hstep : step rootdelay s l = some s') : Advances D s' := by
  cases l with
  | step i => exact h.next hbounded hstep
  | tick t =>
    obtain ⟨-, ⟨⟩⟩ := Option.ite_none_right_eq_some.1 hstep
    exact ⟨h.alone, h.users, h.deadline⟩
  | start i op =>
    obtain ⟨-, ⟨⟩⟩ := Option.ite_none_right_eq_some.1 hstep
    cases op with
    | reset => cases hreset
    | pause | probe | daemon => exact h.goto rfl trivial nofun nofun
  | release i =>
    obtain ⟨-, ⟨⟩⟩ := Option.ite_none_right_eq_some.1 hstep
    exact h.goto rfl trivial nofun nofun

/-- Without a reset and without overflow the deadline never moves back, whatever the order of the
steps. -/
theorem deadline_mono (n : Nat) (rootdelay D : Int) (r r' : State n × Account) (l : Label n)
    (hreach : (system n rootdelay D).ReachBy (fun r l => noReset l && bounded r.1 l) r)
    (hl : noReset l && bounded r.1 l) (hstep : (system n rootdelay D).step r l = some r') :
    ∃ d d', r.1.files.deadline = some d ∧ r'.1.files.deadline = some d' ∧ D ≤ d ∧ d ≤ d' := by
  have hinv : Advances D r.1 := by
    refine hreach.invariant (P := fun r => Advances D r.1) (fun r hr => ?_)
      fun r l r' _ ih hok hs => ?_
    · obtain ⟨⟨hfiles, hidle⟩, -⟩ := hr
      exact ⟨by simp [hidle, Pc.exclusive], by simp [hidle, Pc.Forth], D, by rw [hfiles],
        Int.le_refl D⟩
    · obtain ⟨s', hs', rfl⟩ := Option.map_eq_some_iff.1 hs
      obtain ⟨hreset, hbounded⟩ := Bool.and_eq_true_iff.1 hok
      exact ih.step hreset hbounded hs'
  obtain ⟨d, hd, hle⟩ := hinv.deadline
  obtain ⟨s', hs', rfl⟩ := Option.map_eq_some_iff.1 hstep
  have hnow : Advances d r.1 := ⟨hinv.alone, hinv.users, d, hd, Int.le_refl d⟩
  obtain ⟨hreset, hbounded⟩ := Bool.and_eq_true_iff.1 hl
  obtain ⟨d', hd', hle'⟩ := (hnow.step hreset hbounded hs').deadline
  exact ⟨d, d', hd, hd', hle, hle'⟩

/-- The step in which the second user stores the deadline after the pause that was published late -/
theorem deadline_mono_latePublish : ∃ r r', (system 2 0 100).step r (.step 1) = some r' ∧
    r.1.pc 1 = .storeDeadline 110 ∧ ∃ d d', r.1.files.deadline = some d ∧ r'.1.files.deadline =
      some d' ∧ d ≤ d' := by
  obtain ⟨r, hr, hp⟩ := Lts.reachBy_of_exec (init_start 2 0 100)
    (fun r l => noReset l && bounded r.1 l)
    (latePublish.take 22) (fun r => decide (r.1.pc 1 = .storeDeadline 110)) (by decide +kernel)
  have hpc := of_decide_eq_true hp
  obtain ⟨r', hr'⟩ : ∃ r', (system 2 0 100).step r (.step 1) = some r' := by
    simp [system, step, next, hpc]
  obtain ⟨d, d', hd, hd', -, hle⟩ := deadline_mono 2 0 100 r r' (.step 1) hr
    (by simp [noReset, bounded, hpc]) hr'
  exact ⟨r, r', hr', hpc, d, d', hd, hd', hle⟩

end MakeInitrd.RootDelay
