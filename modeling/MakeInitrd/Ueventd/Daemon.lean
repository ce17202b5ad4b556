import MakeInitrd.Lib.CNum
import MakeInitrd.Lib.FirstMatch

/-!
# The daemon's state and what it does to it

What the kernel keeps for `ueventd`: the directories that it and its workers use, the inotify
instance, the pipe between the workers and the daemon, the pending signals, the timer and the clock.
`filter_dir`, `timer_dir` and `uevent_dir` each hold one sub-directory per queue (`QueueTree`); the
directories that can be watched are told apart by their inode number. A removed directory stays in
`orphans` while something keeps it open: only when its inode goes away does inotify report
`IN_DELETE_SELF`.

Then the watch list of `ueventd.c` with its flags and counters, the functions that read and change
it, and `Task`, the pieces into which the daemon's code is cut: one piece runs without interruption
and makes at most the system calls that its source line makes, and what follows is pushed on
`Daemon.todo`. The stack is empty exactly when the daemon waits in `epoll_wait`.
-/

namespace MakeInitrd.Ueventd

/-! ## What the kernel keeps -/

/-- `d_type` of a directory entry. -/
inductive DType
  | reg | dir | other
deriving DecidableEq

/-- `struct dirent`. -/
structure Dirent where
  dIno : Nat
  dName : String
  dType : DType
deriving DecidableEq

namespace Dirent

/-- `ent->d_name[0] == '.'`. -/
def hidden (ent : Dirent) : Bool :=
  ent.dName.toList.head? == some '.'

/-- A regular file whose name has no leading dot: what `move_files` moves. -/
def isEvent (ent : Dirent) : Bool :=
  ent.dType == .reg && !ent.hidden

end Dirent

/-- `is_dot_dir`. -/
def isDotDir (ent : Dirent) : Bool :=
  ent.dType == .dir && (ent.dName == "." || ent.dName == "..")

/-- A directory without sub-directories of interest: its inode number and its entries, in the order
in which `readdir` returns them. -/
structure Dir where
  ino : Nat
  ents : List Dirent
deriving DecidableEq

namespace Dir

/-- What `readdir` returns until it returns `NULL`. -/
def readdir (d : Dir) : List Dirent :=
  ⟨d.ino, ".", .dir⟩ :: ⟨d.ino, "..", .dir⟩ :: d.ents

def find (d : Dir) (name : String) : Option Dirent :=
  d.ents.find? (·.dName == name)

/-- `unlinkat`. -/
def remove (d : Dir) (name : String) : Dir :=
  { d with ents := d.ents.filter (·.dName != name) }

/-- Link an entry in place of the one of the same name; it becomes the `i`-th that `readdir`
returns. -/
def put (d : Dir) (i : Nat) (ent : Dirent) : Dir :=
  { d with ents := (d.remove ent.dName).ents.take i ++ ent :: (d.remove ent.dName).ents.drop i }

end Dir

/-- `empty_directory`: no entry without a leading dot. -/
def emptyDirectory (d : Dir) : Bool :=
  d.readdir.all Dirent.hidden

/-- A directory of queue directories. The entries that are no directory are kept apart. -/
structure QueueTree where
  ino : Nat
  dirs : List (String × Dir)
  others : List Dirent
deriving DecidableEq

namespace QueueTree

def lookup (t : QueueTree) (name : String) : Option Dir :=
  (t.dirs.find? (·.1 == name)).map (·.2)

/-- Change the content of the sub-directory of that name. -/
def modify (t : QueueTree) (name : String) (f : Dir → Dir) : QueueTree :=
  { t with dirs := t.dirs.map fun p => if p.1 == name then (p.1, f p.2) else p }

/-- `mkdir`, where the new directory is the `i`-th that `readdir` returns. -/
def mkdir (t : QueueTree) (i : Nat) (name : String) (ino : Nat) : QueueTree :=
  { t with dirs := t.dirs.take i ++ (name, ⟨ino, []⟩) :: t.dirs.drop i }

/-- The sub-directory of that name is unlinked with what it holds. -/
def rmdir (t : QueueTree) (name : String) : QueueTree :=
  { t with dirs := t.dirs.filter (·.1 != name) }

/-- What `readdir` returns until it returns `NULL`. -/
def readdir (t : QueueTree) : List Dirent :=
  ⟨t.ino, ".", .dir⟩ :: ⟨t.ino, "..", .dir⟩ ::
    (t.others ++ t.dirs.map fun p => ⟨p.2.ino, p.1, .dir⟩)

/-- The inode numbers of the directory and of its sub-directories. -/
def inos (t : QueueTree) : List Nat :=
  t.ino :: t.dirs.map (·.2.ino)

end QueueTree

/-- The inotify events that `ueventd` asks for, and `IN_IGNORED`, which is always sent. -/
inductive EvKind
  | create | delete | closeWrite | movedTo | deleteSelf | ignored
deriving DecidableEq

/-- `struct inotify_event`. -/
structure InotifyEvent where
  wd : Nat
  kind : EvKind
  name : String
deriving DecidableEq

/-- `EV_PAUSE_MASK`. -/
def evPauseMask : List EvKind := [.create, .delete]

/-- `EV_ROOT_MASK`. -/
def evRootMask : List EvKind := [.create]

/-- `EV_QUEUE_MASK`. -/
def evQueueMask : List EvKind := [.closeWrite, .movedTo, .deleteSelf]

/-- `EV_TIMER_MASK`. -/
def evTimerMask : List EvKind := [.closeWrite, .movedTo, .deleteSelf]

/-- One watch of the inotify instance. -/
structure InotifyWatch where
  wd : Nat
  ino : Nat
  mask : List EvKind
deriving DecidableEq

/-- The directories `watch_path` is called with. -/
inductive Base
  /-- `<uevent_confdb>/queue/pause` -/
  | pause
  /-- `filter_dir` -/
  | filter
  /-- `timer_dir` -/
  | timer
deriving DecidableEq

/-- The kernel's side of the system. -/
structure Kernel where
  pause : Dir
  filter : QueueTree
  timer : QueueTree
  uevent : QueueTree
  /-- Directories that are unlinked but still open somewhere. -/
  orphans : List Nat
  watches : List InotifyWatch
  nextWd : Nat
  inotify : List InotifyEvent
  pipe : List Nat
  sigchld : Bool
  sigterm : Bool
  /-- The expiration the timer is armed with. -/
  timerAt : Option Nat
  /-- `CLOCK_BOOTTIME` in seconds. -/
  now : Nat
deriving DecidableEq

namespace Kernel

/-- `stat(<base>/<name>)`: the inode number of a watched or queue directory. -/
def stat (k : Kernel) : Base → String → Option Nat
  | .pause, name => if name == "." then some k.pause.ino else none
  | .filter, name =>
    if name == "." then some k.filter.ino else (k.filter.lookup name).map (·.ino)
  | .timer, name =>
    if name == "." then some k.timer.ino else (k.timer.lookup name).map (·.ino)

/-- `opendir(<base>/<name>)` for a queue directory. -/
def opendir (k : Kernel) : Base → String → Option Dir
  | .pause, _ => none
  | .filter, name => k.filter.lookup name
  | .timer, name => k.timer.lookup name

/-- Queue an event; one that equals the last queued one is dropped. -/
def enqueue (k : Kernel) (ev : InotifyEvent) : Kernel :=
  if k.inotify.getLast? = some ev then k else { k with inotify := k.inotify ++ [ev] }

/-- Something of that kind happens to the inode `ino`, or in that directory to the entry `name`. -/
def notify (k : Kernel) (ino : Nat) (kind : EvKind) (name : String) : Kernel :=
  match k.watches.find? (·.ino == ino) with
  | none => k
  | some w => if kind ∈ w.mask then k.enqueue ⟨w.wd, kind, name⟩ else k

/-- `inotify_rm_watch`. -/
def inotifyRmWatch (k : Kernel) (wd : Nat) : Kernel :=
  if k.watches.any (·.wd == wd) then
    { k with watches := k.watches.filter (·.wd != wd) }.enqueue ⟨wd, .ignored, ""⟩
  else k

/-- No directory has this inode number, not even one that is unlinked and open. -/
def freshIno (k : Kernel) (ino : Nat) : Bool :=
  ino ∉ k.pause.ino :: (k.filter.inos ++ k.timer.inos ++ k.orphans)

/-- `mkdir(filter_dir/<queue>)`. -/
def makeQueue (k : Kernel) (i : Nat) (queue : String) (ino : Nat) : Kernel :=
  { k with filter := k.filter.mkdir i queue ino }.notify k.filter.ino .create queue

/-- The pipe holds `65536` bytes, `sizeof(int)` for each message. -/
def pipeCapacity : Nat := 16384

/-- `write` of one descriptor to the non-blocking pipe; a full pipe refuses it. -/
def writePipe (k : Kernel) (value : Nat) : Option Kernel :=
  if k.pipe.length < pipeCapacity then some { k with pipe := k.pipe ++ [value] } else none

end Kernel

/-- What other processes do to the directories, and what time and signals do. -/
inductive EnvAct
  /-- A file is renamed into `filter_dir/<queue>`, as `publish_event` does. -/
  | publish (queue : String) (i : Nat) (ent : Dirent)
  /-- A file of `filter_dir/<queue>` is written to and closed. -/
  | write (queue name : String)
  /-- A file of `filter_dir/<queue>` is deleted. -/
  | unpublish (queue name : String)
  | mkQueue (i : Nat) (queue : String) (ino : Nat)
  | rmQueue (queue : String)
  /-- The last reference to an unlinked directory goes away. -/
  | destroy (ino : Nat)
  /-- A file is renamed into `timer_dir/<queue>`. -/
  | publishTimer (queue : String) (i : Nat) (ent : Dirent)
  | unpublishTimer (queue name : String)
  | mkTimer (i : Nat) (queue : String) (ino : Nat)
  | rmTimer (queue : String)
  /-- A file of `uevent_dir/<queue>` is deleted. -/
  | unlinkEvent (queue name : String)
  | mkEvents (i : Nat) (queue : String)
  | rmEvents (queue : String)
  | mkPause (i : Nat) (ent : Dirent)
  | rmPause (name : String)
  | tick (seconds : Nat)
  | terminate
deriving DecidableEq

namespace Kernel

/-- The inode of an unlinked directory goes away, and its watch with it. -/
def dropInode (k : Kernel) (ino : Nat) : Kernel :=
  let k' := { k with orphans := k.orphans.filter (· != ino) }
  match k.watches.find? (·.ino == ino) with
  | none => k'
  | some w => { k' with watches := k.watches.filter (·.ino != ino) }.enqueue ⟨w.wd, .ignored, ""⟩

/-- One action of the surroundings. -/
def env (k : Kernel) : EnvAct → Option Kernel
  | .publish q i ent => do
    let d ← k.filter.lookup q
    if (d.find ent.dName).any (·.dType == .dir) then none
    else return { k with filter := k.filter.modify q (·.put i ent) }.notify d.ino .movedTo ent.dName
  | .write q name => do
    let d ← k.filter.lookup q
    if (d.find name).any (·.dType == .reg) then return k.notify d.ino .closeWrite name else none
  | .unpublish q name => do
    let _ ← k.filter.lookup q
    return { k with filter := k.filter.modify q (·.remove name) }
  | .mkQueue i q ino =>
    if (k.filter.lookup q).isNone && k.freshIno ino && q != "." && q != ".." then
      some (k.makeQueue i q ino)
    else none
  | .rmQueue q => do
    let d ← k.filter.lookup q
    return { k with filter := k.filter.rmdir q, orphans := d.ino :: k.orphans }
  | .destroy ino =>
    if ino ∈ k.orphans then some ((k.notify ino .deleteSelf "").dropInode ino) else none
  | .publishTimer q i ent => do
    let d ← k.timer.lookup q
    if (d.find ent.dName).any (·.dType == .dir) then none
    else return { k with timer := k.timer.modify q (·.put i ent) }.notify d.ino .movedTo ent.dName
  | .unpublishTimer q name => do
    let _ ← k.timer.lookup q
    return { k with timer := k.timer.modify q (·.remove name) }
  | .mkTimer i q ino =>
    if (k.timer.lookup q).isNone && k.freshIno ino && q != "." && q != ".." then
      some ({ k with timer := k.timer.mkdir i q ino }.notify k.timer.ino .create q)
    else none
  | .rmTimer q => do
    let d ← k.timer.lookup q
    return { k with timer := k.timer.rmdir q, orphans := d.ino :: k.orphans }
  | .unlinkEvent q name => do
    let _ ← k.uevent.lookup q
    return { k with uevent := k.uevent.modify q (·.remove name) }
  | .mkEvents i q =>
    if (k.uevent.lookup q).isNone then some { k with uevent := k.uevent.mkdir i q 0 } else none
  | .rmEvents q => do
    let _ ← k.uevent.lookup q
    return { k with uevent := k.uevent.rmdir q }
  | .mkPause i ent =>
    if (k.pause.find ent.dName).isNone then
      some ({ k with pause := k.pause.put i ent }.notify k.pause.ino .create ent.dName)
    else none
  | .rmPause name => do
    let _ ← k.pause.find name
    return { k with pause := k.pause.remove name }.notify k.pause.ino .delete name
  | .tick seconds => some { k with now := k.now + seconds }
  | .terminate => some { k with sigterm := true }

end Kernel

/-! ## The daemon -/

/-- The `F_*` flag a watch is created with. Every call of `watch_path` passes exactly one of them.
-/
inductive WatchKind
  | rootDir | queueDir | pauseDir | timerRoot | timerDir
deriving DecidableEq

/-- `struct watch`. `q_flags` is the kind with `F_DIRTY` and `F_PAUSED`; `q_parentfd` is the write
end of the one pipe in every queue watch. -/
structure Watch where
  kind : WatchKind
  dirty : Bool
  paused : Bool
  qWatchfd : Nat
  qIno : Nat
  qPid : Nat
  qName : String
deriving DecidableEq

/-- The descriptors of `fd_handler_list`. -/
inductive Fd
  | inotify | signal | pipe | timer
deriving DecidableEq

/-- The calls of `rd_fatal` and `exit(EXIT_FAILURE)` the daemon can reach. -/
inductive Fatal
  /-- `unable to start watching`, and the failed watches of `main` and `watch_pauses` -/
  | watch
  /-- `opendir` in `xopendir` -/
  | opendir
  /-- `mkdir` in `ensure_queue_dir` -/
  | mkdir
  /-- `timerfd_settime` -/
  | settime
  /-- `BUG: dirty_queues == 0, but dirty queues are present` -/
  | bug
deriving DecidableEq

/-- Whether the daemon runs, left its loop by `goto done`, or died. -/
inductive Status
  | running
  | exited
  | fatal (why : Fatal)
deriving DecidableEq

/-- A piece of the daemon's code that is still to run. -/
inductive Task
  /-- `fde->fd_handler(fde->fd)` -/
  | handle (fd : Fd)
  /-- the next `read` of `process_inotify_events` -/
  | readInotify
  /-- one turn of the loop over the buffer in `process_inotify_events` -/
  | event (ev : InotifyEvent)
  /-- one turn of the loop of `process_pipefd_events` -/
  | readPipe
  /-- one turn of the `waitpid` loop of `process_signal_events` -/
  | reap
  /-- `watch_path` up to the new watch descriptor -/
  | watchPath (base : Base) (name : String) (mask : List EvKind) (kind : WatchKind)
  /-- the rest of `watch_path` -/
  | watchAdd (base : Base) (name : String) (wfd : Nat) (kind : WatchKind)
  /-- `watch_queues` -/
  | watchQueues
  /-- `watch_timer_queues` -/
  | watchTimerQueues
  /-- `apply_pause` -/
  | applyPause
  /-- `if (timer_changed) update_timerfd(...)` -/
  | checkTimer
  /-- `update_timerfd` up to its outer loop -/
  | updateTimerfd
  /-- one turn of the outer loop of `update_timerfd` -/
  | timerQueue (now : Nat) (queue : String)
  /-- one turn of the inner loop of `update_timerfd` -/
  | timerEntry (now : Nat) (queue : String) (ent : Dirent)
  /-- `move_timer_event` up to `ensure_queue_dir` -/
  | moveTimer (queue name : String)
  /-- the first `mkdir` of `ensure_queue_dir` -/
  | ensureQueueDir (queue : String)
  /-- the second `mkdir` of `ensure_queue_dir` and its `find_queue_watch` -/
  | ensureTmp (queue : String)
  /-- the rest of `move_timer_event` -/
  | renameTimer (queue name : String)
  /-- the end of `update_timerfd` -/
  | setTimer
  /-- the loop of `main` over `watch_list`, at its `i`-th watch -/
  | dispatch (i : Nat)
deriving DecidableEq

/-- The watch list and the variables that are kept with it. `dirty_queues` is an `int`, which is
taken not to overflow. `pauseSeen` is no variable of the program: it records the directories that
the last `apply_pause` found. -/
structure Table where
  watchList : List Watch
  pauseAll : Bool
  dirtyQueues : Int
  pauseSeen : List String
deriving DecidableEq

/-- The daemon: its static variables, the local `next` of `update_timerfd`, and the code still to
run. -/
structure Daemon where
  tab : Table
  timerChanged : Bool
  session : Nat
  next : Nat
  todo : List Task
  status : Status
deriving DecidableEq

/-- `ULLONG_MAX`. -/
def ullongMax : Nat := CNum.ulongSize - 1

/-- The test of `find_queue_watch`. -/
def isQueueWatch (name : String) (p : Watch) : Bool :=
  p.kind == .queueDir && p.qName == name

/-- `find_queue_watch`. -/
def findQueueWatch (l : List Watch) (name : String) : Option Watch :=
  l.find? (isQueueWatch name)

/-- The test of `process_pipefd_events` for a received watch descriptor. -/
def isWatchOf (value : Nat) (p : Watch) : Bool :=
  p.kind == .queueDir && p.qWatchfd == value

/-- The entries that `watch_queues`, `watch_timer_queues`, `apply_pause` and `update_timerfd` do not
skip. -/
def isSubdir (ent : Dirent) : Bool :=
  ent.dType == .dir && !isDotDir ent

/-- `parse_timer_due`. -/
def parseTimerDue (name : String) : Nat :=
  let c := CNum.strtoul 10 (name.toList.map Char.toNat)
  if c.erange || c.rest.head? != some 46 || !c.found then 0 else c.value

/-- The part of a timer's name after the first dot, if there is one that is not empty. -/
def eventName (timerName : String) : Option String :=
  match timerName.toList.dropWhile (· != '.') with
  | _ :: c :: s => some (String.ofList (c :: s))
  | _ => none

namespace Table

/-- `mark_queue_dirty` on the first watch that passes the test. -/
def markQueueDirty (t : Table) (sel : Watch → Bool) : Table :=
  match t.watchList.find? sel with
  | none => t
  | some p =>
    if p.dirty then t
    else { t with
      watchList := t.watchList.modifyFirst sel ({ · with dirty := true })
      dirtyQueues := t.dirtyQueues + 1 }

/-- The end of `watch_path`: a new watch at the head of the list. `isEmpty` is what
`empty_directory` says of the path. -/
def register (t : Table) (name : String) (wfd ino : Nat) (kind : WatchKind) (isEmpty : Bool) :
    Table :=
  let dirty := kind == .queueDir && !isEmpty
  { t with
    watchList := ⟨kind, dirty, t.pauseAll, wfd, ino, 0, name⟩ :: t.watchList
    dirtyQueues := if dirty then t.dirtyQueues + 1 else t.dirtyQueues }

/-- `unwatch_path`, without its `inotify_rm_watch`. -/
def unwatchPath (t : Table) (ino : Nat) : Table :=
  { t with watchList := t.watchList.eraseP (·.qIno == ino) }

/-- The inner loop of `apply_pause` at one watch; `pause_all` is set there exactly when the entry is
named `.all`. -/
def pauseWatch (ent : Dirent) (p : Watch) : Watch :=
  if p.kind == .queueDir && (ent.dName == ".all" || ent.dName == p.qName) then
    { p with paused := true }
  else p

/-- The loop of `apply_pause` over the entries of the pause directory: `pause_all` and the watch
list after it. -/
def pauseLoop : List Dirent → List Watch → Bool × List Watch
  | [], l => (false, l)
  | ent :: ents, l =>
    if !isSubdir ent then pauseLoop ents l
    else if ent.dName == ".all" then (true, l.map (pauseWatch ent))
    else pauseLoop ents (l.map (pauseWatch ent))

/-- `apply_pause`. -/
def applyPause (t : Table) (ents : List Dirent) : Table :=
  let r := pauseLoop ents (t.watchList.map ({ · with paused := false }))
  { t with
    pauseAll := r.1
    watchList := r.2
    pauseSeen := (ents.filter isSubdir).map (·.dName) }

/-- The loop of `process_signal_events` over the watch list. -/
def reap (t : Table) (pid : Nat) : Table :=
  { t with watchList := t.watchList.map fun p => if p.qPid == pid then { p with qPid := 0 } else p }

/-- The assignments of `main` to the `i`-th watch, where `spawn_worker` returns `pid`. -/
def dispatch (t : Table) (i : Nat) (e : Watch) (pid : Nat) : Table :=
  { t with
    watchList := t.watchList.set i { e with dirty := false, qPid := pid }
    dirtyQueues := t.dirtyQueues - 1 }

end Table

/-- The test of `main` for starting a worker. -/
def Watch.ready (e : Watch) : Bool :=
  e.kind == .queueDir && e.dirty && e.qPid == 0 && !e.paused

/-- `main` before its loop. -/
def startup : List Task :=
  [.watchPath .pause "." evPauseMask .pauseDir, .watchPath .filter "." evRootMask .rootDir,
    .watchPath .timer "." evRootMask .timerRoot, .watchQueues, .watchTimerQueues, .applyPause,
    .updateTimerfd]

def Table.start : Table :=
  { watchList := [], pauseAll := false, dirtyQueues := 0, pauseSeen := [] }

/-- The daemon when `main` has set up its descriptors. -/
def Daemon.start : Daemon :=
  { tab := .start, timerChanged := false, session := 0, next := ullongMax, todo := startup,
    status := .running }

end MakeInitrd.Ueventd
