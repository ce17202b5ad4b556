import MakeInitrd.Ueventd.Exclusion

/-!
# The handler of the queue `md-raid-member`

`100-timeout` consumes the member events of its queue, cancels the activation that is scheduled and
schedules a new one; without a member event it consumes the due activations and starts
`process_timeout`. `raid` runs the script, one command at a time, together with `system`: a command
that changes a file is a step of `system` (`unlink` in the event directory is the worker's, `find
-delete` and the `mv` of `publish_event` are done by other processes). `mkdir -p` of the two
directories is left to the surroundings.

`owner` and `lastMember` belong to no program: they say which run of the script has scheduled the
activation in a file, by inode number, and which run was the last to consume a member event.
-/

namespace MakeInitrd.Ueventd.Raid

def queue : String := "md-raid-member"

/-- The pattern `md-raid-member.*`. -/
def isMember (name : String) : Bool :=
  "md-raid-member.".toList.isPrefixOf name.toList

/-- The pattern `timeout.member.*`. -/
def isTimeout (name : String) : Bool :=
  "timeout.member.".toList.isPrefixOf name.toList

/-- The pattern `*.timeout.member.*` of `queue_cancel_timeouts`. -/
def isTimer (name : String) : Bool :=
  decide (".timeout.member.".toList <:+: name.toList)

/-- How far a run of the script is. -/
inductive ScriptPc
  /-- The loop over the member events; `has` is `has_member_events`. -/
  | members (names : List String) (has : Bool)
  /-- The loop that drops the activations in the event directory. -/
  | stale (names : List String)
  /-- `find -delete` of `queue_cancel_timeouts`, with the names it has found. -/
  | cancel (names : List String)
  /-- `queue_timeout_after` is to read the clock. -/
  | schedule
  /-- `publish_event` is to rename the new timer. -/
  | release (due : Nat)
  /-- The loop over the activations; `taken` are the files it has consumed. -/
  | timeouts (names : List String) (taken : List Nat)
  | processTimeout (taken : List Nat)
  | done

/-- A run of the script: its number and its place. -/
structure Script where
  run : Nat
  pc : ScriptPc

/-- The system, the run of the script in each worker's handler phase, the number of runs so far, and
who has scheduled what. -/
structure State where
  sys : Sys
  script : Nat → Option Script
  runs : Nat
  lastMember : Nat
  owner : Nat → Nat

/-- What the next command of the script depends on. -/
inductive ScriptChoice
  | go
  /-- `publish_event` renames the file with this inode number to a name with this end. -/
  | publish (i ino : Nat) (suffix : String)

/-- A step of the daemon, its workers and the surroundings, or of the script of a worker. -/
inductive RaidLabel
  | sys (l : Label)
  | script (pid : Nat) (c : ScriptChoice)

def entries (t : QueueTree) : List Dirent :=
  (t.lookup queue).elim [] (·.ents)

/-- The names in the event directory that match a pattern. -/
def glob (k : Kernel) (pattern : String → Bool) : List String :=
  ((entries k.uevent).map (·.dName)).filter pattern

/-- The names that `find -type f` prints for the timer directory. -/
def findTimers (k : Kernel) : List String :=
  (((entries k.timer).filter (·.dType == .reg)).map (·.dName)).filter isTimer

/-- `[ -f ]` in the event directory. -/
def regularEvent (k : Kernel) (name : String) : Option Dirent :=
  ((k.uevent.lookup queue).bind (·.find name)).filter (·.dType == .reg)

/-- The inode numbers of the files of the queue. -/
def usedInos (k : Kernel) : List Nat :=
  (entries k.timer ++ entries k.filter ++ entries k.uevent).map (·.dIno)

/-- An activation that waits in the timer directory: the daemon will rename it to a
`timeout.member.*`. -/
def isActivation (name : String) : Bool :=
  (eventName name).any isTimeout

namespace State

/-- The script of `pid` is at `pc`. -/
def goto (r : State) (pid run : Nat) (pc : ScriptPc) : State :=
  { r with script := Function.update r.script pid (some ⟨run, pc⟩) }

/-- A command that is a step of the system. -/
def via (r : State) (l : Label) : Option State :=
  (system.step r.sys l).map fun s => { r with sys := s }

end State

/-- The next command of the run `sc` of the script in the worker `pid`. -/
def scriptStep (delay : Nat) (r : State) (pid : Nat) (sc : Script) : ScriptChoice → Option State
  | .go =>
    match sc.pc with
    | .members (name :: names) has =>
      match regularEvent r.sys.k name with
      | none => some (r.goto pid sc.run (.members names has))
      | some _ => (r.via (.worker pid (.unlink name))).map fun r =>
        { r.goto pid sc.run (.members names true) with lastMember := sc.run }
    | .members [] true => some (r.goto pid sc.run (.stale (glob r.sys.k isTimeout)))
    | .members [] false => some (r.goto pid sc.run (.timeouts (glob r.sys.k isTimeout) []))
    | .stale (name :: names) =>
      match regularEvent r.sys.k name with
      | none => some (r.goto pid sc.run (.stale names))
      | some _ => (r.via (.worker pid (.unlink name))).map (·.goto pid sc.run (.stale names))
    | .stale [] => some (r.goto pid sc.run (.cancel (findTimers r.sys.k)))
    | .cancel (name :: names) =>
      -- an error of `find` is ignored
      some (((r.via (.env (.unpublishTimer queue name))).getD r).goto pid sc.run (.cancel names))
    | .cancel [] => some (r.goto pid sc.run (if 0 < delay then .schedule else .done))
    | .schedule => some (r.goto pid sc.run (.release (r.sys.k.now + delay)))
    | .release _ => none
    | .timeouts (name :: names) taken =>
      match regularEvent r.sys.k name with
      | none => some (r.goto pid sc.run (.timeouts names taken))
      | some ent => (r.via (.worker pid (.unlink name))).map
        (·.goto pid sc.run (.timeouts names (ent.dIno :: taken)))
    | .timeouts [] taken =>
      some (r.goto pid sc.run (if taken = [] then .done else .processTimeout taken))
    | .processTimeout _ => some (r.goto pid sc.run .done)
    | .done => (r.via (.worker pid .go)).map fun r =>
      { r with script := Function.update r.script pid none }
  | .publish i ino suffix =>
    match sc.pc with
    | .release due =>
      if ino ∈ usedInos r.sys.k then none
      else
        (r.via (.env (.publishTimer queue i ⟨ino, toString due ++ ".timeout.member." ++ suffix,
          .reg⟩))).map fun r =>
            { r.goto pid sc.run .done with owner := Function.update r.owner ino sc.run }
    | _ => none

/-- The step is not one of the script's own: other processes put no activation into the queue, and
while the script runs its worker waits for it. Without a script the handler phase ends at once, as
when `event_handler` cannot fork. -/
def foreign (r : State) : Label → Bool
  | .env (.publish q _ ent) => q != queue || !isTimeout ent.dName
  | .env (.publishTimer q _ ent) => q != queue || !isActivation ent.dName
  | .worker pid c =>
    (r.sys.ws.find? (·.pid == pid)).all fun w =>
      !(w.qName == queue && w.pc == .handler) || (c == .go && (r.script pid).isNone)
  | _ => true

def step (delay : Nat) (r : State) : RaidLabel → Option State
  | .sys l => if foreign r l then r.via l else none
  | .script pid c =>
    match r.script pid with
    | some sc => scriptStep delay r pid sc c
    | none =>
      if r.sys.ws.any fun w => w.pid == pid && w.qName == queue && w.pc == .handler then
        some { r.goto pid (r.runs + 1) (.members (glob r.sys.k isMember) false) with
          runs := r.runs + 1 }
      else none

/-- `ueventd` with the script, for a `RAID_MEMBER_DELAY`. At the start no activation is left in a
directory of the queue. -/
def raid (delay : Nat) : Lts State RaidLabel where
  init r := system.init r.sys ∧ r.script = (fun _ => none) ∧ r.runs = 0 ∧ r.lastMember = 0 ∧
    (∀ ent ∈ entries r.sys.k.timer, isActivation ent.dName = false) ∧
      ∀ ent ∈ entries r.sys.k.filter ++ entries r.sys.k.uevent, isTimeout ent.dName = false
  step := step delay

end MakeInitrd.Ueventd.Raid
