import MakeInitrd.Lib.Lts
import MakeInitrd.Lib.Glob
import MakeInitrd.Lib.Words

/-!
# The handler of the pipeline queue

The handler `500-pipeline` keeps no state of its own: which step is next stands in an event file,
and a step posts the event of the next one. An event whose handler fails stays where it is, and the
next session looks at it again.

A session of the queue moves the posted events to the events directory and runs the handler over
them. The state of the system (`State`) is what stands in the two directories, the events the
running handler has not looked at yet, and whether `/dev/pipeline` is mounted. What the system
answers to the handler is in the label of the transition. The calls that write and remove event
files are taken to succeed, and nothing but the handler mounts or unmounts `/dev/pipeline`. The
counter of failures and the pause it leads to only keep sessions from starting, so they are left to
`Retry`.
-/

namespace MakeInitrd.Pipeline

open CMem Words Decimal

/-! ## The elements of a pipeline -/

/-- The fields of a text between commas; a comma at the end is not followed by a field. -/
def fields (s : Bytes) : List Bytes :=
  let fs := s.splitOn 44
  if fs.getLast? = some [] then fs.dropLast else fs

/-- `IFS="," read -r -a arr <<<"$PIPELINE"` -/
def elements (pipeline : Bytes) : List Bytes := fields (pipeline.takeWhile (· ≠ 10))

/-- `pipe_name`; the name is empty where there is no element. -/
def pipeName (pipeline : Bytes) (n : Nat) : Bytes := (elements pipeline)[n]?.getD []

/-- `pipe_callnum`; `none` where there is no element. -/
def pipeCallnum (pipeline : Bytes) (n : Nat) : Option Nat :=
  (elements pipeline)[n]?.map fun name => ((elements pipeline).take n).count name

/-- `in_comma_list "$1" "$2"` -/
def inCommaList (var list : Bytes) : Bool := var ∈ fields list

/-- `PIPE_RETCODE_STOP` -/
def pipeRetcodeStop : Nat := 2

def mntdir : Bytes := text "/dev/pipeline"

/-- `"$mntdir/src/pipe$pipenum"` -/
def datadir (n : Nat) : Bytes := mntdir ++ (text "/src/pipe" ++ digits n)

/-- `"$mntdir/dst/pipe$pipenum"` -/
def destdir (n : Nat) : Bytes := mntdir ++ (text "/dst/pipe" ++ digits n)

/-! ## The handler -/

structure Config where
  pipeline : Bytes
  /-- `[ -x "$handlerdir/$name" ]` -/
  executable : Bytes → Bool

inductive Event where
  | init
  /-- An event with the assignments `prevnum=` and `pipenum=`; `prevnum` may be empty. -/
  | step (prevnum : Option Nat) (pipenum : Nat)
  deriving DecidableEq, Repr

/-- What the system answers to the handler of one event. -/
structure Answers where
  /-- `mount -t tmpfs tmpfs "$mntdir"` succeeds. -/
  mount : Bool
  /-- `mkdir -m 700 -- "$mntdir/src" "$mntdir/dst"` succeeds. -/
  dirs : Bool
  /-- `"$destdir"` is a directory and something is mounted on it. -/
  ready : Bool
  /-- `"$datadir"` is a directory or can be made. -/
  data : Bool
  /-- `"$destdir"` is a directory or can be made. -/
  dest : Bool
  /-- The exit code of the script. -/
  rc : Nat

/-- What the handler has done with a step. -/
inductive Entry where
  /-- The script was run, with `prevdir` and `callnum` in its environment, and exited with `rc`. -/
  | started (pipenum : Nat) (prevdir : Bytes) (callnum rc : Nat)
  /-- The destination was mounted already, and the script was not run. -/
  | ready (pipenum : Nat)
  deriving DecidableEq, Repr

/-- What the handler of one event does: whether it returns 0, the event it posts and its entry in
the log. -/
structure Outcome where
  ok : Bool
  post : Option Event
  entry : Option Entry
  deriving DecidableEq, Repr

/-- `handler_init`, with whether `/dev/pipeline` is mounted afterwards. -/
def handlerInit (c : Config) (mounted : Bool) (a : Answers) : Bool × Outcome :=
  if c.pipeline = [] ∨ mounted then (mounted, ⟨true, none, none⟩)
  else if !a.mount then (false, ⟨false, none, none⟩)
  else if !a.dirs then (true, ⟨false, none, none⟩)
  else (true, ⟨true, some (.step none 0), none⟩)

/-- The first step is posted only by the handler that mounts `/dev/pipeline`, and nothing unmounts
it. -/
theorem handlerInit_spec (c : Config) (mounted : Bool) (a : Answers) :
    ((handlerInit c mounted a).2.post = none ∧ (handlerInit c mounted a).2.entry = none ∧
      ((handlerInit c mounted a).1 = false → mounted = false)) ∨
    (mounted = false ∧ handlerInit c mounted a = (true, ⟨true, some (.step none 0), none⟩)) := by
  rw [handlerInit]
  split_ifs with hskip hmount hdirs
  · exact Or.inl ⟨rfl, rfl, id⟩
  · exact Or.inl ⟨rfl, rfl, fun _ => by simpa using (not_or.1 hskip).2⟩
  · exact Or.inl ⟨rfl, rfl, fun h => nomatch h⟩
  · exact Or.inr ⟨by simpa using (not_or.1 hskip).2, rfl⟩

/-- `"$mntdir/dst/pipe$prevnum"`, or empty -/
def prevdir (prevnum : Option Nat) : Bytes := (prevnum.map destdir).getD []

/-- `handler_step` -/
def handlerStep (c : Config) (prevnum : Option Nat) (pipenum : Nat) (a : Answers) : Outcome :=
  match pipeName c.pipeline pipenum, pipeCallnum c.pipeline pipenum with
  | [], _ => ⟨true, none, none⟩
  | _, none => ⟨true, none, none⟩
  | name, some callnum =>
    if !c.executable name then ⟨true, some (.step prevnum (pipenum + 1)), none⟩
    else if a.ready then ⟨true, some (.step (some pipenum) (pipenum + 1)), some (.ready pipenum)⟩
    else if !a.data then ⟨false, none, none⟩
    else if !a.dest then ⟨false, none, none⟩
    else
      let entry := .started pipenum (prevdir prevnum) callnum a.rc
      if a.rc = 0 then ⟨true, some (.step (some pipenum) (pipenum + 1)), some entry⟩
      else if a.rc = pipeRetcodeStop then ⟨true, none, some entry⟩
      else ⟨false, none, some entry⟩

section
variable {c : Config} {prevnum : Option Nat} {pipenum : Nat} {name : Bytes} {a : Answers}

theorem handlerStep_of_pipeName_nil (h : pipeName c.pipeline pipenum = []) :
    handlerStep c prevnum pipenum a = ⟨true, none, none⟩ := by
  rw [handlerStep, h]

theorem handlerStep_of_name (h : (elements c.pipeline)[pipenum]? = some name) (hne : name ≠ []) :
    handlerStep c prevnum pipenum a =
      if !c.executable name then ⟨true, some (.step prevnum (pipenum + 1)), none⟩
      else if a.ready then ⟨true, some (.step (some pipenum) (pipenum + 1)), some (.ready pipenum)⟩
      else if !a.data then ⟨false, none, none⟩
      else if !a.dest then ⟨false, none, none⟩
      else
        let entry := .started pipenum (prevdir prevnum)
          (((elements c.pipeline).take pipenum).count name) a.rc
        if a.rc = 0 then ⟨true, some (.step (some pipenum) (pipenum + 1)), some entry⟩
        else if a.rc = pipeRetcodeStop then ⟨true, none, some entry⟩
        else ⟨false, none, some entry⟩ := by
  obtain ⟨b, bs, rfl⟩ := List.exists_cons_of_ne_nil hne
  rw [handlerStep, pipeName, pipeCallnum, h]
  rfl

theorem pipeName_cases (pipeline : Bytes) (n : Nat) :
    pipeName pipeline n = [] ∨ ∃ name, (elements pipeline)[n]? = some name ∧ name ≠ [] ∧
      pipeName pipeline n = name := by
  cases hname : (elements pipeline)[n]? with
  | none => exact Or.inl (by simp [pipeName, hname])
  | some name =>
    have hpipe : pipeName pipeline n = name := by simp [pipeName, hname]
    by_cases hnil : name = []
    · exact Or.inl (hpipe.trans hnil)
    · exact Or.inr ⟨name, rfl, hnil, hpipe⟩

end

/-- `handler_$s` -/
def handler (c : Config) (mounted : Bool) (a : Answers) : Event → Bool × Outcome
  | .init => handlerInit c mounted a
  | .step prevnum pipenum => (mounted, handlerStep c prevnum pipenum a)

def Event.isStep : Event → Bool
  | .init => false
  | .step _ _ => true

/-- The step events of a directory. -/
def steps (es : List Event) : List Event := es.filter Event.isStep

structure State where
  /-- The events of `$filterdir/pipeline` -/
  queue : List Event
  /-- The events of `$ueventdir/pipeline` -/
  events : List Event
  /-- The events the running handler has still to look at; empty between its runs -/
  todo : List Event
  /-- `mountpoint -q "$mntdir"` -/
  mounted : Bool
  log : List Entry
  deriving DecidableEq, Repr

/-- The step events nobody is done with. -/
def State.pending (s : State) : List Event := steps (s.events ++ s.queue)

inductive Label where
  /-- `pipe_init` posts an event. -/
  | post
  /-- A session moves the posted events and starts the handler. -/
  | session
  /-- The handler looks at its next event. -/
  | handle (a : Answers)

/-- The state once the handler of `e` is over: `( . "$e"; handler_$s; ) && done_event "$e" || rc=1`
-/
def State.handled (s : State) (e : Event) (rest : List Event) : Bool × Outcome → State
  | (mounted, out) =>
    { queue := s.queue ++ out.post.toList
      events := if out.ok then s.events.erase e else s.events
      todo := rest
      mounted := mounted
      log := s.log ++ out.entry.toList }

/-- The queue of the pipeline. -/
def system (c : Config) : Lts State Label where
  init s := s = ⟨[], [], [], false, []⟩
  step s
    | .post => some { s with queue := s.queue ++ [.init] }
    | .session =>
      match s.todo with
      | _ :: _ => none
      | [] =>
        -- The loop looks at the init events first.
        let events := s.events ++ s.queue
        some { s with queue := [], events := events,
                      todo := events.filter (!·.isStep) ++ steps events }
    | .handle a =>
      match s.todo with
      | [] => none
      | e :: rest => some (s.handled e rest (handler c s.mounted a e))

end MakeInitrd.Pipeline
