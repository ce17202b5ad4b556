import Mathlib.Algebra.Order.BigOperators.Group.Finset
import MakeInitrd.Put.Mild

/-!
# Rounds under way

The invariant of the rounds of a run whose calls are `mild`. A round in which no file is marked
makes nothing, and with `--force` it can only remove objects; so a file that was tried in vain
cannot be installed at the end of the round either (`Underway`). A round that marks a file brings
the end nearer, and within a round every step leaves less to do (`State.work`).
-/

namespace MakeInitrd.Put

open Posix CMem

/-- The last step of a round is over. -/
def Phase.isLast : Phase → Bool
  | .hardlinks [] => true
  | _ => false

/-! ## The invariant -/

/-- The invariant of the rounds. In a round that has made nothing, a file that was tried could not
be installed, nor has its target been. -/
structure Underway (cfg : Setup) (jobs : Nat) (s : State) : Prop where
  running : s.phase.Running
  tidy : Tidy cfg jobs s
  le : s.prevInstalled ≤ s.count
  typed : ∀ t p stage, s.job t = some (p, stage) → stage.Typed cfg p
  knows : s.Quiet → ∀ t p stage, s.job t = some (p, stage) → stage.Knows cfg s.fs p
  untargeted : s.Quiet → ∀ t p stage, s.job t = some (p, stage) → stage.direct →
    ∀ q, (p, q) ∈ cfg.collector.hardlinks → q ∉ s.installed
  tried : s.Quiet → ∀ p ∈ cfg.files, p ∉ s.installed → ¬s.Pending cfg p →
    cfg.Vain s.fs p ∧ ∀ q, (p, q) ∈ cfg.collector.hardlinks → q ∉ s.installed

/-- What a call does to the file system that makes nothing. -/
def Shrinks (cfg : Setup) (fs fs' : Fs) : Prop :=
  fs' = fs ∨ cfg.force = true ∧ ∃ l, ∃ hl : l ≠ [], fs' = fs.erase l hl

section
variable {cfg : Setup} {fs fs' : Fs} {s s' : State} {jobs t : Nat} {p q : Item}
    {stage stage' : Stage}
  {c : Choice} {ph ph' : Phase} {methods : Methods}

theorem Setup.Vain.shrinks (h : cfg.Vain fs p) (hfs : Shrinks cfg fs fs') : cfg.Vain fs' p := by
  rcases hfs with rfl | ⟨hforce, l, hl, rfl⟩
  · exact h
  · exact h.erase hforce hl

theorem Stage.Knows.shrinks (h : stage.Knows cfg fs p) (hfs : Shrinks cfg fs fs') :
    stage.Knows cfg fs' p := by
  rcases hfs with rfl | ⟨hforce, l, hl, rfl⟩
  · exact h
  · exact h.erase hforce hl

namespace Underway

section
variable (h : Underway cfg jobs s)
include h

section
variable (hjob : s.job t = some (p, stage))
include hjob

theorem goto (hdfd : stage.dfd = none) (hfs : Shrinks cfg s.fs fs) (htyped : stage'.Typed cfg p)
    (hknows : s.Quiet → stage'.Knows cfg fs p) (hdirect : stage'.direct = stage.direct) :
    Underway cfg jobs ({ s with fs := fs }.goto t p stage') where
  running := h.running
  tidy := (h.tidy.congr fs s.methods).goto hjob
  le := h.le
  typed t' q stage'' hq := by
    rw [State.job_goto] at hq
    split at hq
    · cases hq
      exact htyped
    · exact h.typed t' q stage'' hq
  knows hquiet t' q stage'' hq := by
    have hquiet' : s.Quiet := State.Quiet.of_goto hjob hdfd hquiet
    rw [State.job_goto] at hq
    split at hq
    · cases hq
      exact hknows hquiet'
    · exact (h.knows hquiet' t' q stage'' hq).shrinks hfs
  untargeted hquiet t' q stage'' hq hdir := by
    have hquiet' : s.Quiet := State.Quiet.of_goto hjob hdfd hquiet
    rw [State.job_goto] at hq
    split at hq
    · cases hq
      exact h.untargeted hquiet' t p stage hjob (hdirect ▸ hdir)
    · exact h.untargeted hquiet' t' q stage'' hq hdir
  tried hquiet q hq hnot hpending := by
    have hquiet' : s.Quiet := State.Quiet.of_goto hjob hdfd hquiet
    obtain ⟨hvain, htarget⟩ := h.tried hquiet' q hq hnot fun hp => hpending (hp.goto hjob)
    exact ⟨hvain.shrinks hfs, htarget⟩

theorem leave (hdfd : stage.dfd = none)
    (hdirect : stage.direct) (hvain : s.Quiet → cfg.Vain s.fs p) :
    Underway cfg jobs (s.leave t) where
  running := h.running
  tidy := h.tidy.leave
  le := h.le
  typed t' q stage' hq := h.typed t' q stage' (job_of_leave hq).2
  knows hquiet t' q stage' hq := h.knows (hquiet.of_leave hjob hdfd) t' q stage' (job_of_leave hq).2
  untargeted hquiet t' q stage' hq :=
    h.untargeted (hquiet.of_leave hjob hdfd) t' q stage' (job_of_leave hq).2
  tried hquiet q hq hnot hpending := by
    have hquiet' := hquiet.of_leave hjob hdfd
    by_cases heq : q = p
    · subst heq
      exact ⟨hvain hquiet', h.untargeted hquiet' t q stage hjob hdirect⟩
    · exact h.tried hquiet' q hq hnot fun hp => hpending (hp.leave hjob heq)

theorem finish : Underway cfg jobs ({ s with fs := fs, methods := methods }.finish t p) where
  running := h.running
  tidy := (h.tidy.congr fs methods).finish hjob
  le := h.le.trans (Nat.le_succ _)
  typed t' q stage' hq := h.typed t' q stage' (job_of_leave hq).2
  knows hquiet := absurd hquiet (State.not_quiet_finish h.le)
  untargeted hquiet := absurd hquiet (State.not_quiet_finish h.le)
  tried hquiet := absurd hquiet (State.not_quiet_finish h.le)

theorem copying (hdfd : stage'.dfd ≠ none) (htyped : stage'.Typed cfg p) :
    Underway cfg jobs ({ s with fs := fs, methods := methods }.goto t p stage') where
  running := h.running
  tidy := (h.tidy.congr fs methods).goto hjob
  le := h.le
  typed t' q stage'' hq := by
    rw [State.job_goto] at hq
    split at hq
    · cases hq
      exact htyped
    · exact h.typed t' q stage'' hq
  knows hquiet := absurd hquiet (State.not_quiet_goto hdfd)
  untargeted hquiet := absurd hquiet (State.not_quiet_goto hdfd)
  tried hquiet := absurd hquiet (State.not_quiet_goto hdfd)

end

theorem pass (hpop : s.phase.pop = some (p, ph)) (hp : p ∈ s.installed) :
    Underway cfg jobs { s with phase := ph } where
  running := Phase.running_of_pop hpop
  tidy := h.tidy.pass hpop
  le := h.le
  typed := h.typed
  knows := h.knows
  untargeted := h.untargeted
  tried hquiet q hq hnot hpending :=
    h.tried hquiet q hq hnot fun hp' => hpending (hp'.pass hpop fun heq => hnot (heq ▸ hp))

theorem take (hnodup : cfg.files.Nodup) (hidle : s.job t = none)
    (hpart : s.phase.TakesPart cfg jobs t) (hpop : s.phase.pop = some (p, ph))
    (hp : p ∉ s.installed) (htyped : stage.Typed cfg p) (hknows : stage.Knows cfg s.fs p)
    (htarget : stage.direct → ∀ q, (p, q) ∈ cfg.collector.hardlinks → q ∉ s.installed) :
    Underway cfg jobs ({ s with phase := ph }.goto t p stage) where
  running := Phase.running_of_pop hpop
  tidy := h.tidy.take hnodup hpart hpop hp
  le := h.le
  typed t' q stage' hq := by
    rw [State.job_goto] at hq
    split at hq
    · cases hq
      exact htyped
    · exact h.typed t' q stage' hq
  knows hquiet t' q stage' hq := by
    rw [State.job_goto] at hq
    split at hq
    · cases hq
      exact hknows
    · exact h.knows (hquiet.of_take hidle) t' q stage' hq
  untargeted hquiet t' q stage' hq hdirect := by
    rw [State.job_goto] at hq
    split at hq
    · cases hq
      exact htarget hdirect
    · exact h.untargeted (hquiet.of_take hidle) t' q stage' hq hdirect
  tried hquiet q hq hnot hpending :=
    h.tried (hquiet.of_take hidle) q hq hnot fun hp' => hpending (hp'.take hidle hpop)

theorem enter (hidle : ∀ t, s.job t = none)
    (hph : s.phase = .dirs [] ∧ ph = .pool cfg.collector.nonDirs ∨
      s.phase = .pool [] ∧ ph = .hardlinks cfg.collector.hardlinks) :
    Underway cfg jobs { s with phase := ph } where
  running := by rcases hph with ⟨-, rfl⟩ | ⟨-, rfl⟩ <;> trivial
  tidy := by
    refine h.tidy.enter hidle ?_ s.prevInstalled
    rcases hph with ⟨-, rfl⟩ | ⟨-, rfl⟩ <;> exact List.suffix_rfl
  le := h.le
  typed := h.typed
  knows := h.knows
  untargeted := h.untargeted
  tried hquiet q hq hnot hpending :=
    h.tried hquiet q hq hnot fun hp' => hpending (hp'.enter hph)

theorem next (hidle : ∀ t, s.job t = none) :
    Underway cfg jobs { s with prevInstalled := s.count, phase := .dirs cfg.collector.dirs } where
  running := trivial
  tidy := h.tidy.enter hidle (inTurn_dirs cfg) s.count
  le := le_rfl
  typed := h.typed
  knows _ t _ _ hq := nomatch (hidle t).symm.trans hq
  untargeted _ t _ _ hq := nomatch (hidle t).symm.trans hq
  tried _ _ hq _ hpending := absurd (State.pending_dirs rfl hq) hpending

end

end Underway

theorem underway_start (cfg : Setup) (fs : Fs) (jobs : Nat) : Underway cfg jobs (start cfg fs) where
  running := trivial
  tidy := (inRound_start cfg fs jobs).tidy
  le := le_rfl
  typed _ _ _ hq := nomatch hq
  knows _ _ _ _ hq := nomatch hq
  untargeted _ _ _ _ hq := nomatch hq
  tried _ _ hq _ hpending := absurd (State.pending_dirs rfl hq) hpending

theorem empty_of_erase {l : Loc} (hl : l ≠ []) (hslot : cfg.slot fs p = .ok l) :
    cfg.Empty (fs.erase l hl) p := by
  intro l' hl'
  cases hslot.symm.trans ((below_erase fs hl).slot hl')
  show (if l <+: l then none else fs.names l) = none
  exact if_pos List.prefix_rfl

theorem typed_afterRemove {target : Option Item} (h : (Stage.remove target).Typed cfg p) :
    (Setup.afterRemove p target).Typed cfg p := by
  cases target with
  | none => exact typed_first p
  | some q => exact h.2

theorem direct_afterRemove (p : Item) (target : Option Item) :
    (Setup.afterRemove p target).direct = (Stage.remove target).direct := by
  cases target with
  | none => exact direct_first p
  | some q => rfl

theorem knows_afterRemove {target : Option Item} (h : cfg.Empty fs p) :
    (Setup.afterRemove p target).Knows cfg fs p := by
  cases target with
  | none => exact knows_first fun _ _ => h
  | some q => trivial

theorem vain_of_creat {sfd : Nat} (hreg : p.stat.type = .reg)
    (hknows : (Stage.creat sfd).Knows cfg fs p)
    (hcreat : fs.creat cfg.cwd (cfg.path p) (cfg.node (.reg []) p.stat.perm) = .error .noent) :
    cfg.Vain fs p := by
  cases hforce : cfg.force with
  | true => exact .inr (.inl fun l hslot => creat_ne_noent hslot (hknows.1 hforce l hslot) hcreat)
  | false => exact .inr (.inr ⟨hreg, hforce, hknows.2 hforce, _, hcreat⟩)

/-- Every call keeps the invariant. -/
theorem Underway.call (h : Underway cfg jobs s) (hjob : s.job t = some (p, stage))
    (hcall : Call cfg s t p stage s') : Underway cfg jobs s' := by
  have htyped := h.typed t p stage hjob
  cases hcall with
  | removed hl hforce hslot =>
    exact h.goto hjob rfl (.inr ⟨hforce, _, hl, rfl⟩) (typed_afterRemove htyped)
      (fun _ => knows_afterRemove (empty_of_erase hl hslot)) (direct_afterRemove p _)
  | nothing hempty =>
    exact h.goto hjob rfl (.inl rfl) (typed_afterRemove htyped) (fun _ => knows_afterRemove hempty)
      (direct_afterRemove p _)
  | parentless hvain => exact h.leave hjob rfl rfl fun _ => hvain
  | absent habsent =>
    exact h.goto hjob rfl (.inl rfl) htyped (fun hquiet =>
      ⟨h.knows hquiet t p .access hjob, fun _ => habsent⟩) rfl
  | source =>
    exact h.goto hjob rfl (.inl rfl) htyped (fun hquiet => h.knows hquiet t p .openSource hjob) rfl
  | uncreated hcreat =>
    exact h.leave hjob rfl rfl fun hquiet => vain_of_creat htyped (h.knows hquiet t p _ hjob) hcreat
  | created => exact h.copying hjob (Option.some_ne_none _) htyped
  | allocated => exact h.copying hjob (Option.some_ne_none _) ⟨htyped, within_startCopy⟩
  | copying hcopy =>
    exact h.copying hjob (Option.some_ne_none _) ⟨htyped.1, (htyped.2.step hcopy).1⟩
  | marked => exact h.finish hjob

theorem State.finish_goto : (s.goto t p stage).finish t p = s.finish t p := by
  unfold State.goto State.finish
  rw [Function.update_idem]

/-- The last round is over: nobody installs anything, and this round has marked nothing. -/
structure Exhausted (cfg : Setup) (jobs : Nat) (s : State) : Prop where
  underway : Underway cfg jobs s
  idle (t : Nat) : s.job t = none
  phase : s.phase = .hardlinks []
  count : s.count = s.prevInstalled

/-- What a step of a round leads to. -/
inductive Leads (cfg : Setup) (jobs : Nat) (s : State) (t : Nat) : State → Prop
  | within {s' : State} : Underway cfg jobs s' → s'.prevInstalled = s.prevInstalled →
    ¬(s.phase.isLast ∧ s.job t = none) → Leads cfg jobs s t s'
  /-- a new round, since this one has marked a file -/
  | again {s' : State} : Underway cfg jobs s' → s.prevInstalled < s'.prevInstalled →
    Leads cfg jobs s t s'
  | ended : Exhausted cfg jobs s → s.job t = none → Leads cfg jobs s t (endRound cfg s)

theorem Phase.not_isLast_of_pop (h : ph.pop = some (p, ph')) : ¬ph.isLast := by
  obtain ⟨_, rfl, rfl⟩ | ⟨_, rfl, rfl⟩ | ⟨_, _, rfl, rfl, rfl⟩ := pop_cases h <;> exact nofun

/-- A decision keeps the invariant or ends the rounds. -/
theorem Underway.control (h : Underway cfg jobs s) (hnodup : cfg.files.Nodup)
    (hidle : s.job t = none) (hcontrol : Control cfg jobs s t s') : Leads cfg jobs s t s' := by
  cases hcontrol with
  | pass hpop hp =>
    exact .within (h.pass hpop hp) rfl fun hlast => Phase.not_isLast_of_pop hpop hlast.1
  | take hpart hpop hp htarget =>
    exact .within (h.take hnodup hidle hpart hpop hp (typed_installFile _) (knows_installFile _)
      fun _ => htarget) rfl fun hlast => Phase.not_isLast_of_pop hpop hlast.1
  | @link p q ph hpart hpop hp hreg =>
    refine .within (h.take hnodup hidle hpart hpop hp ?_ ?_ ?_) rfl
      (fun hlast => Phase.not_isLast_of_pop hpop hlast.1)
      <;> cases hforce : cfg.force <;> simp only [Bool.false_eq_true, if_false, if_true]
    · exact hreg
    · exact ⟨hforce, hreg⟩
    · trivial
    · trivial
    · exact nofun
    · exact nofun
  | @same p ph hpart hpop hp hreg =>
    -- as if it had been linked to something
    have htake : Underway cfg jobs ({ s with phase := ph }.goto t p (.link p)) :=
      h.take hnodup hidle hpart hpop hp hreg trivial nofun
    have hjob : ({ s with phase := ph }.goto t p (.link p)).job t = some (p, .link p) := by
      rw [State.job_goto, if_pos rfl]
    rw [← State.finish_goto]
    exact .within (htake.finish hjob) rfl fun hlast => Phase.not_isLast_of_pop hpop hlast.1
  | enter hall hph =>
    refine .within (h.enter hall hph) rfl fun hlast => ?_
    rcases hph with ⟨hs, -⟩ | ⟨hs, -⟩ <;> rw [hs] at hlast <;> cases hlast.1
  | ended hall hphase =>
    by_cases hcount : s.count = s.prevInstalled
    · exact .ended ⟨h, hall, hphase, hcount⟩ hidle
    · unfold endRound
      rw [if_pos hcount]
      exact .again (h.next hall) (lt_of_le_of_ne h.le (Ne.symm hcount))

/-! ## What is left to do -/

/-- A bound for the calls that are left for a file. -/
def Stage.rank (p : Item) : Stage → Nat
  | .make | .link _ => 1
  | .remove (some _) => 2
  | .copy _ _ c => c.rank p.size + 1
  | .allocate .. => 3 * ((bufsiz + 2) * (p.size + 1)) + 1
  | .creat _ => 3 * ((bufsiz + 2) * (p.size + 1)) + 2
  | .openSource => 3 * ((bufsiz + 2) * (p.size + 1)) + 3
  | .access => 3 * ((bufsiz + 2) * (p.size + 1)) + 4
  | .remove none => 3 * ((bufsiz + 2) * (p.size + 1)) + 5

def jobRank : Option (Item × Stage) → Nat
  | none => 0
  | some (p, stage) => stage.rank p

/-- The calls that are left for the files that are being installed. -/
def State.load (cfg : Setup) (jobs : Nat) (s : State) : Nat :=
  ∑ t ∈ Finset.range (cfg.workers jobs), jobRank (s.job t)

/-- The steps of a round that come after this one. -/
def Phase.stepsLeft : Phase → Nat
  | .dirs _ => 2
  | .pool _ => 1
  | _ => 0

/-- How often a round can still mark a file. -/
def State.roundsLeft (cfg : Setup) (s : State) : Nat :=
  match s.phase with
  | .uninstalled | .done | .exit => 0
  | _ => cfg.files.length - s.prevInstalled + 1

/-- What is left to do: rounds, files and steps of this round, and calls. -/
def State.work (cfg : Setup) (jobs : Nat) (s : State) : Nat × Nat × Nat :=
  (s.roundsLeft cfg, (s.phase.rest cfg).length + s.phase.stepsLeft, s.load cfg jobs)

theorem rank_first_lt (p : Item) : (Setup.first p).rank p < (Stage.remove none).rank p := by
  unfold Setup.first
  split
  · exact Nat.lt_succ_self _
  · exact Nat.succ_lt_succ (Nat.succ_pos _)

theorem Stage.rank_pos (p : Item) (stage : Stage) : 0 < stage.rank p := by
  cases stage with
  | remove target => cases target <;> exact Nat.succ_pos _
  | _ => exact Nat.succ_pos _

/-- A call changes neither the step of the round nor what the other threads do, and leaves less to
do for its file. -/
theorem Call.lowers (htyped : stage.Typed cfg p) (h : Call cfg s t p stage s') :
    s'.phase = s.phase ∧ s'.prevInstalled = s.prevInstalled ∧
      ∃ job, s'.job = Function.update s.job t job ∧ jobRank job < stage.rank p := by
  have hafter (target : Option Item) :
      (Setup.afterRemove p target).rank p < (Stage.remove target).rank p := by
    cases target with
    | none => exact rank_first_lt p
    | some q => exact Nat.lt_succ_self _
  cases h with
  | removed | nothing => exact ⟨rfl, rfl, _, rfl, hafter _⟩
  | parentless | uncreated | marked => exact ⟨rfl, rfl, _, rfl, Stage.rank_pos p _⟩
  | absent | source | created => exact ⟨rfl, rfl, _, rfl, Nat.lt_succ_self _⟩
  | allocated => exact ⟨rfl, rfl, _, rfl, Nat.succ_lt_succ rank_startCopy_lt⟩
  | copying hcopy => exact ⟨rfl, rfl, _, rfl, Nat.succ_lt_succ (htyped.2.step hcopy).2⟩

theorem workers_pos (cfg : Setup) (jobs : Nat) : 0 < cfg.workers jobs :=
  Nat.lt_of_lt_of_le Nat.one_pos (le_max_left _ _)

theorem lt_workers_of_takesPart (h : ph.TakesPart cfg jobs t) : t < cfg.workers jobs := by
  cases ph with
  | pool todo => exact h
  | _ =>
    cases h
    exact workers_pos cfg jobs

theorem load_lt (hjob : s.job t = some (p, stage)) (ht : t < cfg.workers jobs)
    {job : Option (Item × Stage)} (hjob' : s'.job = Function.update s.job t job)
    (hlt : jobRank job < stage.rank p) : s'.load cfg jobs < s.load cfg jobs := by
  refine Finset.sum_lt_sum (fun t' _ => ?_) ⟨t, Finset.mem_range.2 ht, ?_⟩
  · rw [hjob']
    by_cases heq : t' = t
    · subst heq
      rw [Function.update_self, hjob]
      exact hlt.le
    · rw [Function.update_of_ne heq]
  · rw [hjob', Function.update_self, hjob]
    exact hlt

theorem work_call (h : Underway cfg jobs s) (hjob : s.job t = some (p, stage))
    (hcall : Call cfg s t p stage s') :
    WellFoundedRelation.rel (s'.work cfg jobs) (s.work cfg jobs) := by
  obtain ⟨hphase, hprev, job, hjob', hlt⟩ := hcall.lowers (h.typed t p stage hjob)
  have hpart := h.tidy.takesPart t (hjob ▸ Option.some_ne_none _)
  have hload : s'.load cfg jobs < s.load cfg jobs :=
    load_lt hjob (lt_workers_of_takesPart hpart) hjob' hlt
  have hrounds : s'.roundsLeft cfg = s.roundsLeft cfg := by
    unfold State.roundsLeft
    rw [hphase, hprev]
  unfold State.work
  rw [hrounds, hphase]
  exact .right _ (.right _ hload)

theorem roundsLeft_of_running (h : s.phase.Running) :
    s.roundsLeft cfg = cfg.files.length - s.prevInstalled + 1 := by
  unfold State.roundsLeft
  cases hphase : s.phase with
  | uninstalled | done | exit =>
    rw [hphase] at h
    exact h.elim
  | _ => rfl

theorem work_of_not_running (h : s.phase.Running) (h' : ¬s'.phase.Running) :
    WellFoundedRelation.rel (s'.work cfg jobs) (s.work cfg jobs) := by
  have hzero : s'.roundsLeft cfg = 0 := by
    unfold State.roundsLeft
    cases hphase : s'.phase with
    | uninstalled | done | exit => rfl
    | _ =>
      rw [hphase] at h'
      exact absurd trivial h'
  refine .left _ _ ?_
  rw [hzero, roundsLeft_of_running h]
  exact Nat.succ_pos _

theorem work_of_phase (h : s.phase.Running) (h' : s'.phase.Running)
    (hprev : s'.prevInstalled = s.prevInstalled)
    (hlt : (s'.phase.rest cfg).length + s'.phase.stepsLeft < (s.phase.rest cfg).length +
      s.phase.stepsLeft) :
    WellFoundedRelation.rel (s'.work cfg jobs) (s.work cfg jobs) := by
  unfold State.work
  rw [roundsLeft_of_running h, roundsLeft_of_running h', hprev]
  exact .right _ (.left _ _ hlt)

theorem work_pop (h : s.phase.Running) (hpop : s.phase.pop = some (p, ph)) (hphase : s'.phase = ph)
    (hprev : s'.prevInstalled = s.prevInstalled) :
    WellFoundedRelation.rel (s'.work cfg jobs) (s.work cfg jobs) := by
  subst hphase
  refine work_of_phase h (Phase.running_of_pop hpop) hprev ?_
  have hsteps : s'.phase.stepsLeft = s.phase.stepsLeft := by
    obtain ⟨_, hs, hs'⟩ | ⟨_, hs, hs'⟩ | ⟨_, _, hs, -, hs'⟩ := Phase.pop_cases hpop <;>
      rw [hs, hs'] <;> rfl
  rw [Phase.rest_of_pop hpop, hsteps, List.length_cons]
  omega

theorem Tidy.count_le (h : Tidy cfg jobs s) : s.count ≤ cfg.files.length :=
  h.count ▸ (h.nodup.subperm fun p hp => h.mem p hp).length_le

theorem work_control (h : Underway cfg jobs s) (hcontrol : Control cfg jobs s t s') :
    WellFoundedRelation.rel (s'.work cfg jobs) (s.work cfg jobs) := by
  cases hcontrol with
  | pass hpop | take _ hpop | link _ hpop | same _ hpop => exact work_pop h.running hpop rfl rfl
  | enter hidle hph =>
    rcases hph with ⟨hs, rfl⟩ | ⟨hs, rfl⟩ <;> refine work_of_phase h.running trivial rfl ?_ <;>
      rw [hs] <;> exact Nat.lt_succ_self _
  | ended hidle hphase =>
    by_cases hcount : s.count = s.prevInstalled
    · exact work_of_not_running h.running (endRound_not_running hcount)
    · have hle := h.le
      have htotal := h.tidy.count_le
      have hlt : cfg.files.length - s.count + 1 < cfg.files.length - s.prevInstalled + 1 := by omega
      unfold endRound
      rw [if_pos hcount]
      refine .left _ _ ?_
      rw [roundsLeft_of_running h.running]
      exact hlt

/-- A step that fails only as expected. -/
def expected (cfg : Setup) (s : State) (l : Nat × Choice) : Prop :=
  mild cfg s l ∧ linkPlaced cfg s l

theorem step_of_running (h : s.phase.Running) : Put.step cfg s t jobs c = (match s.job t with
      | some (p, stage) => callStep cfg s t p c stage
      | none => controlStep cfg s t jobs) := by
  unfold Put.step
  cases hphase : s.phase with
  | uninstalled | done | exit =>
    rw [hphase] at h
    exact h.elim
  | _ => rfl

theorem Underway.step (h : Underway cfg jobs s) (hnodup : cfg.files.Nodup)
    (hok : expected cfg s (t, c)) (hstep : Put.step cfg s t jobs c = some s') :
    WellFoundedRelation.rel (s'.work cfg jobs) (s.work cfg jobs) ∧ Leads cfg jobs s t s' := by
  rw [step_of_running h.running] at hstep
  cases hjob : s.job t with
  | some job =>
    obtain ⟨p, stage⟩ := job
    rw [hjob] at hstep
    have hcall := call_cases hok.1 hok.2 (h.typed t p stage hjob) hjob hstep
    refine ⟨work_call h hjob hcall, .within (h.call hjob hcall) ?_ fun hlast => ?_⟩
    · exact (hcall.lowers (h.typed t p stage hjob)).2.1
    · cases hjob.symm.trans hlast.2
  | none =>
    rw [hjob] at hstep
    have hcontrol := control_cases hnodup h.tidy hjob hstep
    exact ⟨work_control h hcontrol, h.control hnodup hjob hcontrol⟩

/-- A round never gets stuck. -/
theorem Underway.exists_step (h : Underway cfg jobs s) :
    ∃ t c s', Put.step cfg s t jobs c = some s' := by
  have hrunning := h.running
  by_cases hbusy : ∃ t p stage, s.job t = some (p, stage)
  · obtain ⟨t, p, stage, hjob⟩ := hbusy
    obtain ⟨c, s', hcall⟩ : ∃ c s', callStep cfg s t p c stage = some s' := by
      unfold callStep
      cases stage with
      | copy sfd dfd copy =>
        obtain ⟨a, ⟨m, dst, next⟩, hcopy⟩ := copy.exists_step (s.fs.inodes sfd).body.content
          (s.fs.inodes dfd).body.content p.size s.methods
        refine ⟨.answer a, ?_⟩
        simp only [hcopy, Option.bind_eq_bind, Option.bind_some]
        cases next <;> exact ⟨_, rfl⟩
      | openSource =>
        refine ⟨.go, ?_⟩
        dsimp only
        split <;> exact ⟨_, rfl⟩
      | allocate => exact ⟨.go, _, rfl⟩
      | link q =>
        refine ⟨.refused, ?_⟩
        dsimp only
        rw [if_pos rfl]
        exact ⟨_, rfl⟩
      | _ =>
        refine ⟨.go, ?_⟩
        dsimp only
        split <;> exact ⟨_, rfl⟩
    refine ⟨t, c, s', ?_⟩
    rw [step_of_running hrunning, hjob]
    exact hcall
  · have hidle (t : Nat) : s.job t = none := by
      by_contra hne
      obtain ⟨⟨p, stage⟩, hjob⟩ := Option.ne_none_iff_exists'.1 hne
      exact hbusy ⟨t, p, stage, hjob⟩
    have hworkers := workers_pos cfg jobs
    refine ⟨0, .go, ?_⟩
    rw [step_of_running hrunning, hidle 0]
    unfold controlStep
    cases hphase : s.phase with
    | dirs todo => cases todo <;> exact ⟨_, rfl⟩
    | pool todo =>
      cases todo with
      | nil => exact ⟨_, if_pos ⟨rfl, fun t _ => hidle t⟩⟩
      | cons p todo => exact ⟨_, if_pos hworkers⟩
    | hardlinks todo => cases todo <;> exact ⟨_, rfl⟩
    | uninstalled | done | exit =>
      rw [hphase] at hrunning
      exact hrunning.elim

end

end MakeInitrd.Put
