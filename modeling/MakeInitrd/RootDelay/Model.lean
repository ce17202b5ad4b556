import Mathlib.Tactic.Ring
import MakeInitrd.Lib.Lts

/-!
# Pausing the root delay

The functions of `initrd-sh-functions` around the pause lock, and the part of the loop of
`rootdelayd` that uses them, as programs of single steps: a `flock`, a test of a file, a read of the
clock or of a file, an atomic rename or a removal. Each user of the lock is at some place `Pc` in
its program. A user is one open file of the lock, so a process that calls `run_rootdelay_paused`
while it holds the pause is two users.

Which locks a user holds can be read off its place, so the state has no table of locks.
-/

namespace MakeInitrd.RootDelay

/-- The files `pause.time`, `reset` and `deadline`; each holds a number of seconds. -/
structure Files where
  pauseTime : Option Int
  reset : Option Int
  deadline : Option Int
deriving DecidableEq

/-- The place of a user in its program -/
inductive Pc where
  | idle
  -- `rootdelay_pause` and `run_rootdelay_paused`
  | lockShared
  | testPauseTime
  | readStart
  | publish (now : Int)
  | paused
  -- `_rootdelay_finalize_pause`
  | lockExclusive
  | testStart
  | loadStart
  | testReset (start : Option Int)
  | loadReset (start : Option Int)
  | dropReset (start reset : Option Int)
  | testDeadline (start : Option Int)
  | readEnd (start : Int)
  | loadDeadline (duration : Int)
  | storeDeadline (deadline : Int)
  | dropStart
  | unlock
  -- `rootdelay_paused`
  | probe
  | probed
  -- `rootdelay_reset_timer`
  | resetClock
  | resetStore (now : Int)
  | resetProbe (now : Int)
  | resetProbed
  | resetRecord (now : Int)
  -- the loop of `rootdelayd`
  | daemonProbe
  | daemonProbed
  | daemonTest
  | daemonClock
  | daemonDeadline (now : Int)
  | daemonStore (deadline : Int)
deriving DecidableEq

/-- The user holds the shared lock. -/
def Pc.shared : Pc → Bool
  | .testPauseTime | .readStart | .publish _ | .paused => true
  | _ => false

/-- The user holds the exclusive lock. -/
def Pc.exclusive : Pc → Bool
  | .testStart | .loadStart | .testReset _ | .loadReset _ | .dropReset _ _ | .testDeadline
    _ | .readEnd _
  | .loadDeadline _ | .storeDeadline _ | .dropStart | .unlock | .probed | .resetProbed
    | .daemonProbed => true
  | _ => false

structure State (n : Nat) where
  clock : Int
  files : Files
  pc : Fin n → Pc

variable {n : Nat}

namespace State

/-- User `i` goes to another place. -/
def goto (s : State n) (i : Fin n) (pc : Pc) : State n := { s with pc := Function.update s.pc i pc }

def setPauseTime (s : State n) (t : Option Int) : State n :=
  { s with files := { s.files with pauseTime := t } }

def setReset (s : State n) (t : Option Int) : State n :=
  { s with files := { s.files with reset := t } }

def setDeadline (s : State n) (t : Option Int) : State n :=
  { s with files := { s.files with deadline := t } }

def sharedHeld (s : State n) : Bool := decide (∃ i, (s.pc i).shared)

/-- Some user holds the exclusive lock. -/
def exclusiveHeld (s : State n) : Bool := decide (∃ i, (s.pc i).exclusive)

/-- `flock -n -x` succeeds. -/
def lockFree (s : State n) : Bool := !s.sharedHeld && !s.exclusiveHeld

end State

/-- `$(( ))` computes with 64 bits. -/
def wrap (v : Int) : Int := v.bmod (2 ^ 64)

def fits (v : Int) : Bool := -2 ^ 63 ≤ v ∧ v < 2 ^ 63

theorem wrap_of_fits {v : Int} (h : fits v) : wrap v = v := by
  obtain ⟨h₁, h₂⟩ := of_decide_eq_true h
  exact Int.bmod_eq_of_le (by omega) (by omega)

/-- `reset_time` is taken as the start of the pause if it is later. -/
def laterStart : Option Int → Option Int → Option Int
  | some start, some reset => if reset > start then some reset else some start
  | start, _ => start

/-- The next step of user `i`; `none` if it waits for the lock, is idle or leaves the pause to
others. -/
def next (rootdelay : Int) (s : State n) (i : Fin n) : Option (State n) :=
  match s.pc i with
  | .idle | .paused => none
  | .lockShared => if s.exclusiveHeld then none else some (s.goto i .testPauseTime)
  | .testPauseTime => some (s.goto i (if s.files.pauseTime.isSome then .paused else .readStart))
  | .readStart => some (s.goto i (.publish s.clock))
  | .publish now => some ((s.setPauseTime (some now)).goto i .paused)
  | .lockExclusive => some (s.goto i (if s.lockFree then .testStart else .idle))
  | .testStart => some (s.goto i (if s.files.pauseTime.isSome then .loadStart else .unlock))
  | .loadStart => some (s.goto i (.testReset s.files.pauseTime))
  | .testReset start =>
    some (s.goto i (if s.files.reset.isSome then .loadReset start else .testDeadline start))
  | .loadReset start => some (s.goto i (.dropReset start s.files.reset))
  | .dropReset start reset =>
    some ((s.setReset none).goto i (.testDeadline (laterStart start reset)))
  | .testDeadline start =>
    match start with
    | some t => some (s.goto i (if s.files.deadline.isSome then .readEnd t else .dropStart))
    | none => some (s.goto i .dropStart)
  | .readEnd start =>
    let duration := wrap (s.clock - start)
    some (s.goto i (if duration > 0 then .loadDeadline duration else .dropStart))
  | .loadDeadline duration =>
    match s.files.deadline with
    | some d => some (s.goto i (if d > 0 then .storeDeadline (wrap (d + duration)) else .dropStart))
    | none => some (s.goto i .dropStart)
  | .storeDeadline deadline => some ((s.setDeadline (some deadline)).goto i .dropStart)
  | .dropStart => some ((s.setPauseTime none).goto i .unlock)
  | .unlock => some (s.goto i .idle)
  | .probe => some (s.goto i (if s.lockFree then .probed else .idle))
  | .probed => some (s.goto i .idle)
  | .resetClock => some (s.goto i (.resetStore s.clock))
  | .resetStore now =>
    some ((s.setDeadline (some (wrap (now + rootdelay)))).goto i (.resetProbe now))
  | .resetProbe now => some (s.goto i (if s.lockFree then .resetProbed else .resetRecord now))
  | .resetProbed => some (s.goto i .idle)
  | .resetRecord now => some ((s.setReset (some now)).goto i .idle)
  | .daemonProbe => some (s.goto i (if s.lockFree then .daemonProbed else .idle))
  | .daemonProbed => some (s.goto i .daemonTest)
  | .daemonTest =>
    some (s.goto i (if s.files.pauseTime.isSome then .lockExclusive else .daemonClock))
  | .daemonClock => some (s.goto i (.daemonDeadline s.clock))
  | .daemonDeadline now =>
    some (s.goto i (if s.files.deadline.isSome then .idle
      else .daemonStore (wrap (now + rootdelay))))
  | .daemonStore deadline => some ((s.setDeadline (some deadline)).goto i .idle)

/-- What an idle user can begin -/
inductive Op where
  | pause
  | probe
  | reset
  | daemon
deriving DecidableEq

def Op.start : Op → Pc
  | .pause => .lockShared
  | .probe => .probe
  | .reset => .resetClock
  | .daemon => .daemonProbe

inductive Label (n : Nat) where
  /-- the clock goes on to a time -/
  | tick (t : Int)
  | start (i : Fin n) (op : Op)
  | step (i : Fin n)
  /-- `rootdelay_unpause`, or the command of `run_rootdelay_paused` has ended: the lock is closed -/
  | release (i : Fin n)
deriving DecidableEq

/-- The steps of all users, in any order -/
def step (rootdelay : Int) (s : State n) : Label n → Option (State n)
  | .tick t => if s.clock ≤ t then some { s with clock := t } else none
  | .start i op => if s.pc i = .idle then some (s.goto i op.start) else none
  | .step i => next rootdelay s i
  | .release i => if s.pc i = .paused then some (s.goto i .lockExclusive) else none

/-- Nobody uses the lock and there is a deadline. -/
def Init (deadline : Int) (s : State n) : Prop :=
  s.files = ⟨none, none, some deadline⟩ ∧ ∀ i, s.pc i = .idle

end MakeInitrd.RootDelay
