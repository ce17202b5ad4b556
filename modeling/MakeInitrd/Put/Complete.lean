import MakeInitrd.Put.Underway

/-!
# The rounds come to an end

The calls of the run fail only for a missing parent or because there is something already (`mild`).
The rounds end, with at most one more of them than there are files, and when they end a file without
a mark could not be installed (`installs_of_linkPlaced`).

A hard link whose parent is missing is not left to a later round, as a file is (`not_installs`).
-/

namespace MakeInitrd.Put

open Posix CMem

/-! ## What is claimed of a run -/

/-- A call of `install_file` or `install_hardlink` at this point can come to mark the file. -/
inductive Marks (cfg : Setup) (p : Item) : State → Stage → Prop
  | finish {s s' : State} {stage : Stage} {c : Choice} : callStep cfg s 0 p c stage = some s' →
    p ∈ s'.installed → Marks cfg p s stage
  | next {s s' : State} {stage stage' : Stage} {c : Choice} : callStep cfg s 0 p c stage = some s' →
    s'.job 0 = some (p, stage') → Marks cfg p s' stage' → Marks cfg p s stage

/-- The file could be installed in the destination as it is. -/
def CouldInstall (cfg : Setup) (s : State) (p : Item) : Prop :=
  Marks cfg p s (cfg.installFile p) ∨ ∃ q, (p, q) ∈ cfg.collector.hardlinks ∧
    (p ∈ (installHardlink cfg s 0 p q).installed ∨ ∃ stage, (installHardlink cfg s 0 p q).job 0 =
      some (p, stage) ∧
        Marks cfg p (installHardlink cfg s 0 p q) stage)

/-- The letter that `print_file` prints. -/
def typeLetter : FileType → UInt8
  | .blk => 98
  | .chr => 99
  | .dir => 100
  | .fifo => 112
  | .lnk => 108
  | .reg => 102
  | .sock => 115

/-- `print_file` -/
def printFile (cfg : Setup) (p : Item) : Bytes :=
  [typeLetter p.stat.type, 9] ++ text p.src ++ [9] ++ text (cfg.path p) ++ [9] ++
    ((p.symlink.map text).getD []) ++ [10]

/-- What the run has printed: at its end `tree_walk(print_uninstalled_file)`, if it comes to that.
-/
def State.printed (cfg : Setup) (s : State) : List Bytes :=
  match s.phase with
  | .uninstalled => cfg.files.flatMap fun p => if p ∈ s.installed then [] else [printFile cfg p]
  | _ => []

/-- The installation, with the number of rounds that are over. -/
def counted (cfg : Setup) (fs : Fs) (jobs : Nat) : Lts (State × Nat) (Nat × Choice) where
  init s := s = (start cfg fs, 0)
  step s l := (step cfg s.1 l.1 jobs l.2).map fun s' =>
    (s', if s.1.phase.isLast ∧ s.1.job l.1 = none then s.2 + 1 else s.2)

/-- What is claimed of every state of a run. -/
structure Good (cfg : Setup) (fs : Fs) (jobs : Nat) (ok : State → Nat × Choice → Prop) (s : State)
    (rounds : Nat) : Prop where
  /-- the counter is the number of the files with a mark -/
  counter : s.count = (cfg.files.filter (· ∈ s.installed)).length
  rounds_le : rounds ≤ cfg.files.length + 1
  /-- the run does not go on for ever, and goes on until it is over -/
  terminates : (installation cfg fs jobs).Terminates ok s
  goes_on : s.phase.Running → ∃ t c s', step cfg s t jobs c = some s'
  /-- at the end no file without a mark could be installed -/
  complete : ¬s.phase.Running → ∀ p ∈ cfg.files, p ∉ s.installed → ¬CouldInstall cfg s p
  /-- and the run fails, with a list of these files, exactly if there are some -/
  fails : ¬s.phase.Running → (s.phase ≠ .done ↔ ∃ p ∈ cfg.files, p ∉ s.installed)
  printed : ¬s.phase.Running → s.printed cfg =
    (cfg.files.filter (· ∉ s.installed)).map (printFile cfg)

/-- Every state of the runs whose steps satisfy `ok` is as claimed. -/
def Installs (cfg : Setup) (fs : Fs) (jobs : Nat) (ok : State → Nat × Choice → Prop) : Prop :=
  ∀ s rounds, (counted cfg fs jobs).ReachBy (fun s l => ok s.1 l) (s, rounds) →
    Good cfg fs jobs ok s rounds

section
variable {cfg : Setup} {fs fs' : Fs} {s s' : State} {jobs t : Nat} {p q : Item}
    {stage stage' : Stage}
  {c : Choice} {ph ph' : Phase} {methods : Methods}

/-! ## At the end -/

/-- The calls of `install_file` before anything is made. -/
def Stage.Before (cfg : Setup) (p : Item) (stage : Stage) : Prop :=
  stage.Typed cfg p ∧ stage.direct = true ∧ stage.dfd = none

theorem before_first (cfg : Setup) (p : Item) : (Setup.first p).Before cfg p :=
  ⟨typed_first p, direct_first p, dfd_first p⟩

theorem before_installFile (p : Item) : (cfg.installFile p).Before cfg p :=
  ⟨typed_installFile p, direct_installFile p, dfd_installFile p⟩

theorem resolve_of_vain (h : cfg.Vain fs p) (hreg : p.stat.type = .reg) (l : Loc) :
    fs.resolve cfg.cwd (cfg.path p) ≠ .ok l := by
  rcases h with ⟨hlnk, -⟩ | hslot | ⟨-, -, habsent, -⟩
  · cases hlnk.symm.trans hreg
  · intro hresolve
    obtain ⟨l', hl', -⟩ := Fs.slot_of_resolve (path_ne_nil cfg p) hresolve
    exact hslot l' hl'
  · exact habsent l

theorem creat_of_vain (h : cfg.Vain fs p) (hreg : p.stat.type = .reg) :
    ∃ e, fs.creat cfg.cwd (cfg.path p) (cfg.node (.reg []) p.stat.perm) = .error e := by
  rcases h with ⟨hlnk, -⟩ | hslot | ⟨-, -, -, hcreat⟩
  · cases hlnk.symm.trans hreg
  · exact creat_error_of_slot hslot
  · exact hcreat

/-- A call for a file that is tried in vain marks nothing, and what it leads to is in vain too. -/
theorem callStep_of_vain (h : cfg.Vain s.fs p) (hbefore : stage.Before cfg p)
    (hstep : callStep cfg s t p c stage = some s') :
    s'.installed = s.installed ∧ cfg.Vain s'.fs p ∧
      (s'.job = s.job ∨ s'.job = Function.update s.job t none ∨
        ∃ stage', stage'.Before cfg p ∧ s'.job = Function.update s.job t (some (p, stage'))) := by
  obtain ⟨htyped, hdirect, hdfd⟩ := hbefore
  unfold callStep at hstep
  cases stage with
  | remove target =>
    cases target with
    | some q => cases hdirect
    | none =>
      dsimp only at hstep
      split at hstep
      · next fs hremove =>
        cases hstep
        refine ⟨rfl, ?_, .inr (.inr ⟨_, before_first cfg p, rfl⟩)⟩
        unfold Fs.remove at hremove
        split at hremove
        · cases hremove
        · split at hremove
          · cases hremove
          · split at hremove
            · next hl =>
              cases hremove
              exact h.erase htyped.1 hl.1
            · cases hremove
      · cases hstep
        exact ⟨rfl, h, .inr (.inr ⟨_, before_first cfg p, rfl⟩)⟩
      · cases hstep
        exact ⟨rfl, h, .inl rfl⟩
  | make =>
    obtain ⟨e, he, hne⟩ := make_of_vain h htyped
    dsimp only at hstep
    rw [he] at hstep
    cases e with
    | noent =>
      cases hstep
      exact ⟨rfl, h, .inr (.inl rfl)⟩
    | exist => exact absurd rfl hne
    | _ =>
      cases hstep
      exact ⟨rfl, h, .inl rfl⟩
  | access =>
    dsimp only at hstep
    split at hstep
    · next l hl => exact absurd hl (resolve_of_vain h htyped l)
    · cases hstep
      exact ⟨rfl, h, .inr (.inr ⟨.openSource, ⟨htyped, rfl, rfl⟩, rfl⟩)⟩
  | openSource =>
    dsimp only at hstep
    split at hstep
    · next sfd _ =>
      cases hstep
      exact ⟨rfl, h, .inr (.inr ⟨.creat sfd, ⟨htyped, rfl, rfl⟩, rfl⟩)⟩
    · cases hstep
      exact ⟨rfl, h, .inl rfl⟩
  | creat sfd =>
    obtain ⟨e, he⟩ := creat_of_vain h htyped
    dsimp only at hstep
    rw [he] at hstep
    cases e with
    | noent =>
      cases hstep
      exact ⟨rfl, h, .inr (.inl rfl)⟩
    | _ =>
      cases hstep
      exact ⟨rfl, h, .inl rfl⟩
  | allocate | copy => cases hdfd
  | link q => cases hdirect

theorem not_marks (h : cfg.Vain s.fs p) (hnot : p ∉ s.installed) (hbefore : stage.Before cfg p)
    (hjob : ∀ stage', s.job 0 = some (p, stage') → stage'.Before cfg p) : ¬Marks cfg p s stage := by
  intro hmarks
  induction hmarks with
  | finish hstep hin =>
    rw [(callStep_of_vain h hbefore hstep).1] at hin
    exact hnot hin
  | @next _ s₁ _ _ _ hstep hnext _ ih =>
    obtain ⟨hinst, hvain, hcases⟩ := callStep_of_vain h hbefore hstep
    have hjob' (stage' : Stage) (hq : s₁.job 0 = some (p, stage')) : stage'.Before cfg p := by
      rcases hcases with heq | heq | ⟨stage'', hbefore', heq⟩ <;> rw [heq] at hq
      · exact hjob stage' hq
      · rw [Function.update_self] at hq
        cases hq
      · rw [Function.update_self] at hq
        cases hq
        exact hbefore'
    exact ih hvain (hinst ▸ hnot) (hjob' _ hnext) hjob'

theorem not_couldInstall (h : cfg.Vain s.fs p) (hnot : p ∉ s.installed) (hidle : s.job 0 = none)
    (htarget : ∀ q, (p, q) ∈ cfg.collector.hardlinks → q ∉ s.installed) :
    ¬CouldInstall cfg s p := by
  rintro (hmarks | ⟨q, hq, hlink⟩)
  · exact not_marks h hnot (before_installFile p)
      (fun _ hjob => nomatch hidle.symm.trans hjob) hmarks
  · unfold installHardlink at hlink
    rw [if_pos (htarget q hq)] at hlink
    rcases hlink with hin | ⟨stage, hjob, hmarks⟩
    · exact hnot hin
    · have hbefore (stage' : Stage)
          (hjob' : (s.goto 0 p (cfg.installFile p)).job 0 = some (p, stage')) :
          stage'.Before cfg p := by
        rw [State.job_goto, if_pos rfl] at hjob'
        cases hjob'
        exact before_installFile p
      exact not_marks (s := s.goto 0 p (cfg.installFile p)) h hnot (hbefore stage hjob)
        hbefore hmarks

theorem Exhausted.vain (h : Exhausted cfg jobs s) (hp : p ∈ cfg.files) (hnot : p ∉ s.installed) :
    cfg.Vain s.fs p ∧ ∀ q, (p, q) ∈ cfg.collector.hardlinks → q ∉ s.installed := by
  refine h.underway.tried ⟨h.count, fun t _ _ hq => nomatch (h.idle t).symm.trans hq⟩ p hp hnot ?_
  rintro (hrest | ⟨t, stage, hjob⟩)
  · rw [h.phase] at hrest
    cases hrest
  · cases (h.idle t).symm.trans hjob

inductive Ended (cfg : Setup) (jobs : Nat) : State → Prop
  | uninstalled {s : State} : Exhausted cfg jobs s → s.count < cfg.files.length →
    Ended cfg jobs { s with phase := .uninstalled }
  | done {s : State} {fs : Fs} : Exhausted cfg jobs s → cfg.files.length ≤ s.count →
    Ended cfg jobs { s with fs := fs, phase := .done }

theorem Exhausted.ended (h : Exhausted cfg jobs s) (hjob : s.job t = none)
    (hmild : mild cfg s (t, c)) :
    Ended cfg jobs (endRound cfg s) := by
  rcases endRound_cases h.count with ⟨hlt, heq⟩ | ⟨hle, ⟨hnone, -⟩ | ⟨fs, -, heq⟩⟩
  · rw [heq]
    exact .uninstalled h hlt
  · unfold mild at hmild
    simp only [hjob, h.phase, hnone, h.count, Option.isSome_none] at hmild
    have hlt := h.count ▸ hle
    simp only [ne_eq, not_true, decide_false, Bool.or_false, Bool.false_or,
      decide_eq_true_eq] at hmild
    omega
  · rw [heq]
    exact .done h hle

theorem Ended.not_running (h : Ended cfg jobs s) : ¬s.phase.Running := by
  cases h <;> exact id

theorem Tidy.all_installed (h : Tidy cfg jobs s) (hle : cfg.files.length ≤ s.count)
    (hp : p ∈ cfg.files) :
    p ∈ s.installed := by
  have hsub : s.installed.Subperm cfg.files := h.nodup.subperm fun q hq => h.mem q hq
  exact (hsub.perm_of_length_le (h.count ▸ hle)).mem_iff.2 hp

theorem Tidy.exists_uninstalled (h : Tidy cfg jobs s) (hnodup : cfg.files.Nodup)
    (hlt : s.count < cfg.files.length) : ∃ p ∈ cfg.files, p ∉ s.installed := by
  by_contra hall
  push Not at hall
  have hle := (hnodup.subperm fun p hp => hall p hp).length_le
  rw [← h.count] at hle
  omega

theorem Tidy.counter (h : Tidy cfg jobs s) (hnodup : cfg.files.Nodup) :
    s.count = (cfg.files.filter (· ∈ s.installed)).length := by
  rw [h.count]
  refine ((List.perm_ext_iff_of_nodup h.nodup (hnodup.filter _)).2 fun p => ?_).length_eq
  rw [List.mem_filter, decide_eq_true_eq]
  exact ⟨fun hp => ⟨h.mem p hp, hp⟩, And.right⟩

theorem flatMap_print {α β : Type} (f : α → β) (P : α → Prop) [DecidablePred P] (as : List α) :
    (as.flatMap fun a => if P a then [] else [f a]) = (as.filter fun a => ¬P a).map f := by
  induction as with
  | nil => rfl
  | cons a as ih =>
    rw [List.flatMap_cons, ih, List.filter_cons]
    by_cases ha : P a <;> simp [ha]

/-! ## Runs -/

def Underway.OrEnded (cfg : Setup) (jobs : Nat) (s : State) : Prop :=
  Underway cfg jobs s ∨ Ended cfg jobs s

theorem orEnded_of_leads (hok : expected cfg s (t, c)) (h : Leads cfg jobs s t s') :
    Underway.OrEnded cfg jobs s' := by
  cases h with
  | within h | again h => exact .inl h
  | ended h hjob => exact .inr (h.ended hjob hok.1)

theorem terminates_of_orEnded (hnodup : cfg.files.Nodup) (h : Underway.OrEnded cfg jobs s) :
    (installation cfg fs jobs).Terminates (expected cfg) s := by
  refine Lts.terminates_of_measure (State.work cfg jobs) (fun s l s' hs hok hstep => ?_) h
  rcases hs with hs | hs
  · obtain ⟨hrel, hout⟩ := hs.step hnodup hok hstep
    exact ⟨orEnded_of_leads hok hout, hrel⟩
  · cases (step_of_not_running hs.not_running).symm.trans hstep

/-- Every round but the last has installed a file. -/
theorem rounds_of_reach (hnodup : cfg.files.Nodup) {rounds : Nat}
    (h : (counted cfg fs jobs).ReachBy (fun s l => expected cfg s.1 l) (s, rounds)) :
    Underway cfg jobs s ∧ rounds ≤ s.prevInstalled ∨ Ended cfg jobs s ∧ rounds ≤
      cfg.files.length + 1 := by
  refine h.invariant (P := fun s => Underway cfg jobs s.1 ∧ s.2 ≤ s.1.prevInstalled ∨
    Ended cfg jobs s.1 ∧ s.2 ≤ cfg.files.length + 1) ?_ ?_
  · rintro _ rfl
    exact .inl ⟨underway_start cfg fs jobs, le_rfl⟩
  · rintro ⟨s₁, r₁⟩ ⟨t, c⟩ ⟨s₂, r₂⟩ - hinv hok hstep
    obtain ⟨s', hstep', heq⟩ := Option.map_eq_some_iff.1 hstep
    cases heq
    dsimp only at hinv hok hstep' ⊢
    rcases hinv with ⟨hs, hle⟩ | ⟨hs, -⟩
    · obtain ⟨-, hout⟩ := hs.step hnodup hok hstep'
      cases hout with
      | within hs' hprev hlast =>
        refine .inl ⟨hs', ?_⟩
        rw [if_neg hlast, hprev]
        exact hle
      | again hs' hlt =>
        refine .inl ⟨hs', ?_⟩
        split <;> omega
      | ended hover hjob =>
        refine .inr ⟨hover.ended hjob hok.1, ?_⟩
        have hcount := hs.tidy.count_le
        have hprev := hs.le
        split <;> omega
    · cases (step_of_not_running hs.not_running).symm.trans hstep'

theorem Underway.good (h : Underway cfg jobs s) (hnodup : cfg.files.Nodup) {rounds : Nat}
    (hrounds : rounds ≤ s.prevInstalled) : Good cfg fs jobs (expected cfg) s rounds where
  counter := h.tidy.counter hnodup
  rounds_le := (hrounds.trans (h.le.trans h.tidy.count_le)).trans (Nat.le_succ _)
  terminates := terminates_of_orEnded hnodup (.inl h)
  goes_on _ := h.exists_step
  complete hnot := absurd h.running hnot
  fails hnot := absurd h.running hnot
  printed hnot := absurd h.running hnot

theorem Ended.good (h : Ended cfg jobs s) (hnodup : cfg.files.Nodup) {rounds : Nat}
    (hrounds : rounds ≤ cfg.files.length + 1) : Good cfg fs jobs (expected cfg) s rounds := by
  have hterminates : (installation cfg fs jobs).Terminates (expected cfg) s :=
    terminates_of_orEnded hnodup (.inr h)
  have hover := h.not_running
  cases h with
  | @uninstalled s h hlt =>
    exact {
      counter := h.underway.tidy.counter hnodup
      rounds_le := hrounds
      terminates := hterminates
      goes_on := fun hrunning => absurd hrunning hover
      complete := fun _ p hp hnot =>
        not_couldInstall (h.vain hp hnot).1 hnot (h.idle 0) (h.vain hp hnot).2
      fails := fun _ => iff_of_true nofun (h.underway.tidy.exists_uninstalled hnodup hlt)
      printed := fun _ => flatMap_print (printFile cfg) (· ∈ s.installed) cfg.files }
  | @done s fs h hle =>
    have hall (p : Item) (hp : p ∈ cfg.files) : p ∈ s.installed :=
      h.underway.tidy.all_installed hle hp
    exact {
      counter := h.underway.tidy.counter hnodup
      rounds_le := hrounds
      terminates := hterminates
      goes_on := fun hrunning => absurd hrunning hover
      complete := fun _ p hp hnot => absurd (hall p hp) hnot
      fails := fun _ => iff_of_false (fun hne => hne rfl) fun ⟨p, hp, hnot⟩ => hnot (hall p hp)
      printed := fun _ => by
        rw [List.filter_eq_nil_iff.2 fun p hp => by simp [hall p hp]]
        rfl }

/-- The rounds come to an end and are complete, if the parent of every new name is there when the
name is linked. -/
theorem installs_of_linkPlaced (cfg : Setup) (fs : Fs) (jobs : Nat) (hnodup : cfg.files.Nodup) :
    Installs cfg fs jobs fun s l => mild cfg s l ∧ linkPlaced cfg s l := by
  intro s rounds hreach
  rcases rounds_of_reach hnodup hreach with ⟨h, hrounds⟩ | ⟨h, hrounds⟩
  · exact h.good hnodup hrounds
  · exact h.good hnodup hrounds

end

/-! ## A parent that comes later -/

/-- A file of the tree; `size` is that of the regular ones. -/
def aheadFile (p : Path) (type : FileType) (symlink : Option Path) (ino nlink : Nat) : Item :=
  ⟨[] :: p, [] :: p, symlink, ⟨type, 0o755, 0, 0, 8, ino, 0, nlink⟩, 1⟩

/-- The files `/a` and `/g/h/b`, with `nlink` links each, and the symlink `/e` to the directory
`/f`. Since `/o/g` is there and is no directory, `main` has dropped `/g`. -/
def aheadSetup (nlink : Nat) : Setup where
  cwd := []
  destdir := [[111]]
  removePrefix := none
  force := false
  files := [aheadFile [[97]] .reg none 2 nlink, aheadFile [[101]] .lnk (some [[102]]) 3 1,
    aheadFile [[102]] .dir none 4 2, aheadFile [[103], [104]] .dir none 6 2,
    aheadFile [[103], [104], [98]] .reg none 2 nlink]
  uid := 0
  gid := 0
  dev := 8
  privileged := true

/-- In the destination `/o` there is a symlink `g` to `e`, which is still to be installed. -/
def aheadFs : Fs :=
  Fs.ofList [([], 1), ([[97]], 2), ([[101]], 3), ([[102]], 4), ([[103]], 5), ([[103], [104]], 6),
      ([[103], [104], [98]], 2), ([[111]], 7), ([[111], [103]], 8)]
    (fun i => ⟨match i with
      | 2 => .reg [97]
      | 3 => .link [[102]]
      | 8 => .link [[101]]
      | _ => .dir, 0o755, 0, 0, 8, 1⟩) 9 (by decide) (by decide) (by decide)

def Phase.isExit : Phase → Bool
  | .exit => true
  | _ => false

theorem Phase.isExit_iff {ph : Phase} : ph.isExit ↔ ph = .exit := by
  cases ph <;> simp [Phase.isExit]

/-- `n` steps of `main`, of which the last creates a file, and the copy of its one byte. -/
def stepsAndCopy (n : Nat) : List (Nat × Choice) :=
  List.replicate n (0, .go) ++ [(0, .allocated), (0, .answer (.transferred 1))]

theorem ahead_reach (nlink : Nat) (ok : State × Nat → Nat × Choice → Bool)
    (ls : List (Nat × Choice)) (P : State × Nat → Bool)
    (h : ((counted (aheadSetup nlink) aheadFs 1).exec ok (start (aheadSetup nlink) aheadFs, 0)
      ls).any P = true) :
    ∃ s rounds, (counted (aheadSetup nlink) aheadFs 1).ReachBy (ok · ·) (s, rounds) ∧
      P (s, rounds) = true := by
  obtain ⟨⟨s, rounds⟩, hreach, hP⟩ :=
    Lts.reachBy_of_exec (show (counted (aheadSetup nlink) aheadFs 1).init _ from rfl) _ _ _ h
  exact ⟨s, rounds, hreach, hP⟩

/-- Two different files: the second round makes `/o/g/h` and copies `/g/h/b`, the third finds
nothing to do. -/
theorem installs_of_linkPlaced_ahead : ∃ s rounds, (counted (aheadSetup 1) aheadFs 1).ReachBy
        (fun s l => mild (aheadSetup 1) s.1 l ∧ linkPlaced (aheadSetup 1) s.1 l) (s, rounds) ∧
      s.phase = .done ∧ rounds = 3 ∧
      Good (aheadSetup 1) aheadFs 1 (fun s l => mild (aheadSetup 1) s l ∧
        linkPlaced (aheadSetup 1) s l) s rounds := by
  obtain ⟨s, rounds, hreach, hend⟩ := ahead_reach 1
    (fun s l => mild (aheadSetup 1) s.1 l && linkPlaced (aheadSetup 1) s.1 l)
    (stepsAndCopy 9 ++ stepsAndCopy 18 ++ List.replicate 10 (0, .go))
    (fun s => s.1.phase.isDone && s.2 == 3) (by decide +kernel)
  rw [Bool.and_eq_true, beq_iff_eq] at hend
  have hreach' := hreach.mono fun s l hok => (Bool.and_eq_true _ _).mp hok
  exact ⟨s, rounds, hreach', Phase.isDone_iff.1 hend.1, hend.2,
    installs_of_linkPlaced (aheadSetup 1) aheadFs 1 (by decide) s rounds hreach'⟩

/-- Two names of one file: the first round ends the run, since the parent of `/o/g/h/b` is missing
when the name is to be linked, although by then the directory `/o/g/h` could be made; neither is
listed. -/
theorem not_installs : (aheadSetup 2).files.Nodup ∧
      ¬Installs (aheadSetup 2) aheadFs 1 fun s l => mild (aheadSetup 2) s l := by
  refine ⟨by decide, fun hinstalls => ?_⟩
  obtain ⟨s, rounds, hreach, hend⟩ := ahead_reach 2 (fun s l => mild (aheadSetup 2) s.1 l)
    (stepsAndCopy 9 ++ List.replicate 5 (0, .go))
    (fun s => s.1.phase.isExit && decide (aheadFile [[103], [104]] .dir none 6 2 ∉ s.1.installed) &&
      (callStep (aheadSetup 2) s.1 0 (aheadFile [[103], [104]] .dir none 6 2) .go
        ((aheadSetup 2).installFile (aheadFile [[103], [104]] .dir none 6 2))).any
          fun s' => aheadFile [[103], [104]] .dir none 6 2 ∈ s'.installed) (by decide +kernel)
  simp only [Bool.and_eq_true, decide_eq_true_eq] at hend
  obtain ⟨⟨hexit, hnot⟩, hcall⟩ := hend
  obtain ⟨s', hcall, hin⟩ := (Option.any_eq_true _ _).1 hcall
  have hover : ¬s.phase.Running := by
    rw [Phase.isExit_iff.1 hexit]
    exact id
  exact (hinstalls s rounds hreach).complete hover _ (by decide) hnot
    (.inl (.finish hcall (of_decide_eq_true hin)))

end MakeInitrd.Put
