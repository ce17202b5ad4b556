import MakeInitrd.Lib.Lts
import MakeInitrd.Ueventd.Daemon

/-!
# The system: daemon, workers, kernel and surroundings

`system` interleaves the daemon's tasks (`runTask`), the steps of the workers it has forked
(`workerStep`, the code of `queue-processor.c`) and the actions of other processes (`Kernel.env`),
one at a time and in any order. What a system call returns beyond the kernel's state is chosen by
the label.
-/

namespace MakeInitrd.Ueventd

/-- How far a worker is in `process_events`. -/
inductive WorkerPc
  /-- `move_files` is to open its directories. -/
  | start
  /-- The loop of `move_files` over the directory `ino`; `ents` are still to come from `readdir`. -/
  | moving (ino : Nat) (ents : List Dirent)
  /-- The first `empty_directory`. -/
  | check
  /-- The handler program runs. -/
  | handler
  /-- The second `empty_directory`. -/
  | recheck
  /-- `signal_unhandled_events`. -/
  | signal
  /-- `exit(0)` at the end of `process_events`. -/
  | exited
  /-- Dead by `rd_fatal` or by a signal. -/
  | killed
deriving DecidableEq

/-- Neither form of death leaves a running process. -/
def WorkerPc.dead : WorkerPc → Bool
  | .exited | .killed => true
  | _ => false

/-- A child of the daemon that is not reaped: its pid, what it has of the queue's watch, and its
place in the code. -/
structure Worker where
  pid : Nat
  qName : String
  qWatchfd : Nat
  session : Nat
  pc : WorkerPc
deriving DecidableEq

structure Sys where
  k : Kernel
  d : Daemon
  ws : List Worker
deriving DecidableEq

/-- What the daemon's next system call answers. -/
inductive Choice
  | go
  /-- The call fails. -/
  | fail
  /-- `epoll_wait` returns these descriptors. -/
  | ready (fds : List Fd)
  /-- `read` delivers that many inotify events. -/
  | read (n : Nat)
  /-- `fork` or `waitpid` returns this pid. -/
  | pid (n : Nat)
  /-- `mkdir` makes a directory with this inode number. -/
  | ino (n : Nat)
deriving DecidableEq

inductive WorkerChoice
  | go
  /-- It dies by a signal or a failing system call. -/
  | die
  /-- `readdir` returns an entry that appeared after the directory was opened. -/
  | also (ent : Dirent)
  /-- The handler program creates a file in the event directory. -/
  | put (ent : Dirent)
  /-- The handler program deletes a file of the event directory. -/
  | unlink (name : String)
deriving DecidableEq

inductive Label
  | daemon (c : Choice)
  | worker (pid : Nat) (c : WorkerChoice)
  | env (a : EnvAct)
deriving DecidableEq

namespace Sys

/-- Code to run before the rest. -/
def push (s : Sys) (ts : List Task) : Sys :=
  { s with d.todo := ts ++ s.d.todo }

def stop (s : Sys) (status : Status) : Sys :=
  { s with d.status := status, d.todo := [] }

end Sys

/-- One turn of the loop over the inotify buffer in `process_inotify_events`. -/
def processEvent (s : Sys) (ev : InotifyEvent) : Sys :=
  match s.d.tab.watchList.find? (·.qWatchfd == ev.wd) with
  | none => s
  | some p =>
    if ev.kind = .deleteSelf then
      -- `unwatch_path` searches by inode number, so it can find another watch than `p`
      match s.d.tab.watchList.find? (·.qIno == p.qIno) with
      | none => s
      | some e => { s with k := s.k.inotifyRmWatch e.qWatchfd, d.tab := s.d.tab.unwatchPath p.qIno }
    else
      match p.kind with
      | .rootDir => if ev.kind = .create then s.push [.watchQueues] else s
      | .timerRoot =>
        let s' := { s with d.timerChanged := true }
        if ev.kind = .create then s'.push [.watchTimerQueues] else s'
      | .pauseDir => s.push [.applyPause]
      | .timerDir => { s with d.timerChanged := true }
      | .queueDir => { s with d.tab := s.d.tab.markQueueDirty (·.qWatchfd == ev.wd) }

/-- One turn of the loop of `main` over the watch list, at the watch `e`. -/
def dispatchWatch (s : Sys) (i : Nat) (e : Watch) (c : Choice) : Option Sys :=
  if !e.ready then some (s.push [.dispatch (i + 1)])
  else if s.d.tab.dirtyQueues = 0 then some (s.stop (.fatal .bug))
  else
    match c with
    | .fail =>
      some (Sys.push { s with d.tab := s.d.tab.dispatch i e 0, d.session := s.d.session + 1 }
        [.dispatch (i + 1)])
    | .pid pid =>
      if pid ≠ 0 ∧ pid ∉ s.ws.map (·.pid) then
        some (Sys.push { s with
          d.tab := s.d.tab.dispatch i e pid
          d.session := s.d.session + 1
          ws := ⟨pid, e.qName, e.qWatchfd, s.d.session + 1, .start⟩ :: s.ws } [.dispatch (i + 1)])
      else none
    | _ => none

/-- The test of the inner loop of `update_timerfd`. -/
def timerEntry (s : Sys) (now : Nat) (queue : String) (ent : Dirent) : Sys :=
  if ent.hidden || ent.dType != .reg then s
  else
    let due := parseTimerDue ent.dName
    if due = 0 then s
    else if now < due then { s with d.next := if due < s.d.next then due else s.d.next }
    else s.push [.moveTimer queue ent.dName]

/-- The `rename` of `move_timer_event`. -/
def renameTimer (k : Kernel) (queue name : String) : Option Kernel := do
  let ev ← eventName name
  let src ← k.timer.lookup queue
  let ent ← src.find name
  let dst ← k.filter.lookup queue
  if (dst.find ev).any (·.dType == .dir) then none
  else return { k with
    timer := k.timer.modify queue (·.remove name)
    filter := k.filter.modify queue (·.put 0 { ent with dName := ev }) }.notify dst.ino .movedTo ev

/-- Run one piece of the daemon's code; `s` has it already off the stack. -/
def runTask (s : Sys) (c : Choice) : Task → Option Sys
  | .handle .inotify => some (s.push [.readInotify])
  | .handle .signal =>
    if s.k.sigterm then some (Sys.stop { s with k.sigterm := false } .exited)
    else if s.k.sigchld then some (Sys.push { s with k.sigchld := false } [.reap])
    else some s
  | .handle .pipe => some (s.push [.readPipe])
  | .handle .timer =>
    if s.k.timerAt.any (· ≤ s.k.now) then
      some { s with k.timerAt := none, d.timerChanged := true }
    else some s
  | .readInotify =>
    if s.k.inotify = [] then some s
    else
      match c with
      | .read n =>
        if n = 0 then none
        else some (Sys.push { s with k.inotify := s.k.inotify.drop n }
          ((s.k.inotify.take n).map .event ++ [.readInotify]))
      | _ => none
  | .event ev => some (processEvent s ev)
  | .readPipe =>
    match s.k.pipe with
    | [] => some s
    | value :: rest =>
      some (Sys.push { s with
        k.pipe := rest
        d.tab := s.d.tab.markQueueDirty (isWatchOf value) } [.readPipe])
  | .reap =>
    match c with
    | .go => if s.ws.any (·.pc.dead) then none else some s
    | .pid pid =>
      if s.ws.any fun w => w.pid == pid && w.pc.dead then
        some (Sys.push { s with d.tab := s.d.tab.reap pid, ws := s.ws.filter (·.pid != pid) }
          [.reap])
      else none
    | .fail => some (s.stop .exited)
    | _ => none
  | .watchPath base name mask kind =>
    if c = .fail then some (s.stop (.fatal .watch))
    else
      match s.k.stat base name with
      | none => some (s.stop (.fatal .watch))
      | some ino =>
        if s.k.watches.any (·.ino == ino) then some s
        else
          some (Sys.push { s with
            k.watches := ⟨s.k.nextWd, ino, mask⟩ :: s.k.watches
            k.nextWd := s.k.nextWd + 1 } [.watchAdd base name s.k.nextWd kind])
  | .watchAdd base name wfd kind =>
    match s.k.stat base name with
    | none => some (Sys.stop { s with k := s.k.inotifyRmWatch wfd } (.fatal .watch))
    | some ino =>
      let isEmpty := (s.k.opendir base name).all emptyDirectory
      some { s with
        d.tab := s.d.tab.register name wfd ino kind isEmpty
        d.timerChanged := s.d.timerChanged || (kind == .timerDir && !isEmpty) }
  | .watchQueues =>
    some (s.push ((s.k.filter.readdir.filter isSubdir).map fun ent =>
      .watchPath .filter ent.dName evQueueMask .queueDir))
  | .watchTimerQueues =>
    some (s.push ((s.k.timer.readdir.filter isSubdir).map fun ent =>
      .watchPath .timer ent.dName evTimerMask .timerDir))
  | .applyPause => some { s with d.tab := s.d.tab.applyPause s.k.pause.readdir }
  | .checkTimer => some (if s.d.timerChanged then s.push [.updateTimerfd] else s)
  | .updateTimerfd =>
    some (Sys.push { s with d.next := ullongMax }
      ((s.k.timer.readdir.filter isSubdir).map (fun ent => .timerQueue s.k.now ent.dName) ++
        [.setTimer]))
  | .timerQueue now queue =>
    match s.k.timer.lookup queue with
    | none => some (s.stop (.fatal .opendir))
    | some d => some (s.push (d.readdir.map (.timerEntry now queue)))
  | .timerEntry now queue ent => some (timerEntry s now queue ent)
  | .moveTimer queue name =>
    some (if (eventName name).isSome then s.push [.ensureQueueDir queue, .renameTimer queue name]
      else s)
  | .ensureQueueDir queue =>
    -- a file of that name makes `mkdir` fail with `EEXIST` too
    if (s.k.filter.lookup queue).isSome || s.k.filter.others.any (·.dName == queue) then
      some (s.push [.ensureTmp queue])
    else
      match c with
      | .ino ino =>
        if s.k.freshIno ino then
          some (Sys.push { s with k := s.k.makeQueue 0 queue ino } [.ensureTmp queue])
        else none
      | .fail => some (s.stop (.fatal .mkdir))
      | _ => none
  | .ensureTmp queue =>
    match s.k.filter.lookup queue with
    | none => some (s.stop (.fatal .mkdir))
    | some d =>
      let s' := if (d.find ".tmp").isSome then s
        else { s with k.filter := s.k.filter.modify queue (·.put 0 ⟨0, ".tmp", .dir⟩) }
      some (if (findQueueWatch s.d.tab.watchList queue).isSome then s'
        else s'.push [.watchPath .filter queue evQueueMask .queueDir])
  | .renameTimer queue name =>
    match renameTimer s.k queue name with
    | none => some s
    | some k => some { s with k := k, d.tab := s.d.tab.markQueueDirty (isQueueWatch queue) }
  | .setTimer =>
    if s.d.next = ullongMax then some { s with k.timerAt := none, d.timerChanged := false }
    -- a `time_t` of this value is negative, and `timerfd_settime` fails with `EINVAL`
    else if 2 ^ 63 ≤ s.d.next then some (s.stop (.fatal .settime))
    else some { s with k.timerAt := some s.d.next, d.timerChanged := false }
  | .dispatch i =>
    match s.d.tab.watchList[i]? with
    | none => some s
    | some e => dispatchWatch s i e c

/-- The timeout `main` passes to `epoll_wait`; `-1` waits without one. -/
def epollTimeout (d : Daemon) : Int :=
  if d.tab.dirtyQueues ≠ 0 then 250 else -1

/-- `epoll_wait`, which returns no descriptor only on a timeout, or the next piece of the daemon's
code. -/
def daemonStep (s : Sys) (c : Choice) : Option Sys :=
  if s.d.status ≠ .running then none
  else
    match s.d.todo with
    | [] =>
      match c with
      | .ready fds =>
        if fds = [] ∧ epollTimeout s.d = -1 then none
        else some (s.push (fds.map .handle ++ [.checkTimer, .dispatch 0]))
      | _ => none
    | t :: rest => runTask { s with d.todo := rest } c t

/-- `renameat` of `move_files` for one entry of the source directory `ino`. -/
def moveFile (k : Kernel) (queue : String) (ino : Nat) (name : String) : Option Kernel := do
  let src ← k.filter.lookup queue
  let dst ← k.uevent.lookup queue
  let ent ← src.find name
  if src.ino ≠ ino ∨ (dst.find name).any (·.dType == .dir) then none
  else return { k with
    filter := k.filter.modify queue (·.remove name)
    uevent := k.uevent.modify queue (·.put 0 ent) }

/-- One step of `process_events`. -/
def workerStep (k : Kernel) (w : Worker) : WorkerChoice → Option (Kernel × WorkerPc)
  | .die => if w.pc.dead then none else some (k, .killed)
  | .go =>
    match w.pc with
    | .start =>
      match k.filter.lookup w.qName with
      | none => some (k, .killed)
      | some src =>
        let k' := if (k.uevent.lookup w.qName).isSome then k
          else { k with uevent := k.uevent.mkdir 0 w.qName 0 }
        some (k', .moving src.ino src.readdir)
    | .moving _ [] => some (k, .check)
    | .moving ino (ent :: ents) =>
      if !ent.isEvent then some (k, .moving ino ents)
      else
        match moveFile k w.qName ino ent.dName with
        | none => some (k, .killed)
        | some k' => some (k', .moving ino ents)
    | .check =>
      match k.uevent.lookup w.qName with
      | none => some (k, .killed)
      | some dst => some (k, if emptyDirectory dst then .exited else .handler)
    | .handler => some (k, .recheck)
    | .recheck =>
      match k.uevent.lookup w.qName with
      | none => some (k, .killed)
      | some dst => some (k, if emptyDirectory dst then .exited else .signal)
    | .signal => some ((k.writePipe w.qWatchfd).getD k, .exited)
    | .exited | .killed => none
  | .also ent =>
    match w.pc, k.filter.lookup w.qName with
    | .moving ino ents, some src =>
      if src.ino = ino ∧ ent ∈ src.ents ∧ ent ∉ ents then some (k, .moving ino (ent :: ents))
      else none
    | _, _ => none
  | .put ent =>
    match w.pc, k.uevent.lookup w.qName with
    | .handler, some _ =>
      some ({ k with uevent := k.uevent.modify w.qName (·.put 0 ent) }, .handler)
    | _, _ => none
  | .unlink name =>
    match w.pc, k.uevent.lookup w.qName with
    | .handler, some _ =>
      some ({ k with uevent := k.uevent.modify w.qName (·.remove name) }, .handler)
    | _, _ => none

/-- The worker's new place in its code; its death raises `SIGCHLD`. -/
def Sys.setWorker (s : Sys) (pid : Nat) (k : Kernel) (pc : WorkerPc) : Sys :=
  { s with
    k := { k with sigchld := k.sigchld || pc.dead }
    ws := s.ws.modifyFirst (·.pid == pid) ({ · with pc := pc }) }

def step (s : Sys) : Label → Option Sys
  | .daemon c => daemonStep s c
  | .worker pid c =>
    match s.ws.find? (·.pid == pid) with
    | none => none
    | some w => (workerStep s.k w c).map fun r => s.setWorker pid r.1 r.2
  | .env a => (s.k.env a).map fun k => { s with k := k }

/-- What holds of the kernel's tables when the daemon starts: no watch, event or message yet, and
each directory has its own name and inode number. -/
structure Kernel.Fresh (k : Kernel) : Prop where
  watches : k.watches = []
  inotify : k.inotify = []
  pipe : k.pipe = []
  orphans : k.orphans = []
  names : (k.filter.dirs.map (·.1)).Nodup
  timerNames : (k.timer.dirs.map (·.1)).Nodup
  eventNames : (k.uevent.dirs.map (·.1)).Nodup
  inos : (k.pause.ino :: (k.filter.inos ++ k.timer.inos)).Nodup

/-- The daemon with its surroundings, from the start of `main`. -/
def system : Lts Sys Label where
  init s := s.k.Fresh ∧ s.d = Daemon.start ∧ s.ws = []
  step := step

/-! ## What a step can be -/

section
variable {s s' : Sys}

/-- A step of the daemon ends a wait in `epoll_wait` or runs the piece of code on top of the
stack. -/
theorem daemonStep_cases {c : Choice} (h : daemonStep s c = some s') : s.d.status = .running ∧
      ((∃ fds : List Fd, s.d.todo = [] ∧ s' =
        s.push (fds.map .handle ++ [.checkTimer, .dispatch 0])) ∨
        ∃ t rest, s.d.todo = t :: rest ∧ runTask { s with d.todo := rest } c t = some s') := by
  unfold daemonStep at h
  split at h
  · cases h
  · next hrun =>
    refine ⟨Decidable.not_not.1 hrun, ?_⟩
    split at h
    · next ht =>
      split at h
      · next fds =>
        split at h
        · cases h
        · cases h
          exact .inl ⟨fds, ht, rfl⟩
      · cases h
    · next t rest ht => exact .inr ⟨t, rest, ht, h⟩

theorem step_worker {pid : Nat} {c : WorkerChoice} (h : step s (.worker pid c) = some s') :
    ∃ w k pc, s.ws.find? (·.pid == pid) = some w ∧ workerStep s.k w c = some (k, pc) ∧ s' =
      s.setWorker pid k pc := by
  simp only [step] at h
  split at h
  · cases h
  · next w hw =>
    obtain ⟨⟨k, pc⟩, hr, rfl⟩ := Option.map_eq_some_iff.1 h
    exact ⟨w, k, pc, hw, hr, rfl⟩

theorem step_env {a : EnvAct} (h : step s (.env a) = some s') :
    ∃ k, s.k.env a = some k ∧ s' = { s with k := k } := by
  obtain ⟨k, hk, rfl⟩ := Option.map_eq_some_iff.1 h
  exact ⟨k, hk, rfl⟩

end

/-! ## A started daemon

The state from which the runs below that break a property start: one queue `udev` with no events,
and the daemon back in `epoll_wait` after its start-up (`boot`). -/

namespace Fixture

/-- One queue directory, with inode number 4; no events, timers or pauses. -/
def kernel : Kernel :=
  { pause := ⟨1, []⟩, filter := ⟨2, [("udev", ⟨4, []⟩)], []⟩, timer := ⟨3, [], []⟩,
    uevent := ⟨0, [], []⟩, orphans := [], watches := [], nextWd := 1, inotify := [], pipe := [],
    sigchld := false, sigterm := false, timerAt := none, now := 0 }

/-- The system when `main` starts. -/
def start : Sys :=
  ⟨kernel, .start, []⟩

/-- The daemon's start-up, up to its first `epoll_wait`. -/
def boot : List Label :=
  List.replicate 13 (.daemon .go)

/-- The regular file of that name, with inode number `ino`. -/
def file (ino : Nat) (name : String) : Dirent :=
  ⟨ino, name, .reg⟩

/-- The start-up and one event file: the queue is marked dirty when its inotify event is read. -/
def dirtyRun : List Label :=
  boot ++ [.env (.publish "udev" 0 (file 9 "event")), .daemon (.ready [.inotify]), .daemon .go,
    .daemon (.read 1), .daemon .go]

theorem init_start : system.init start :=
  ⟨⟨rfl, rfl, rfl, rfl, by decide, by decide, by decide, by decide⟩, rfl, rfl⟩

end Fixture

end MakeInitrd.Ueventd
