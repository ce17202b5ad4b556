import MakeInitrd.Lib.FsCalls
import MakeInitrd.Put.Copy

/-!
# The installation of `initrd-put`

The part of `main` after the work queue. The files of the tree are sorted into directories,
non-directories and further names of regular files (`classify_file`); then rounds of three steps go
over those that are not yet installed, until a round installs nothing. In the second step the worker
threads take non-directories from a shared list. A file whose parent directory is missing is left to
a later round, since the parent may lead through a symlink that is still to be installed.

A step of the system is one system call of one thread, or one decision of `main` or of a worker.
What the file system does not decide by itself (how many bytes a call moves, whether there are hard
links) is in the label of the step.
-/

namespace MakeInitrd.Put

open Posix List CMem

section
/-- The fields of a `struct file` that the installation reads; `size` is `st_size`. -/
structure Item where
  src : Path
  dst : Path
  symlink : Option Path
  stat : Stat
  size : Nat
deriving DecidableEq

def text (p : Path) : Bytes :=
  [47].intercalate p

/-- `strcmp` is not positive. -/
def strcmpLe : Bytes → Bytes → Bool
  | [], _ => true
  | _ :: _, [] => false
  | a :: as, b :: bs => a < b || a = b && strcmpLe as bs

/-- `compare_dir_order` is not positive. -/
def compareDirOrder (a b : Item) : Bool :=
  let la := (text a.dst).length
  let lb := (text b.dst).length
  la < lb || la = lb && strcmpLe (text a.dst) (text b.dst)

/-- `struct file_collector` and `hardlinks_root`; a hard link is kept with its `hardlink_target`. -/
structure Collector where
  dirs : List Item
  nonDirs : List Item
  hardlinks : List (Item × Item)
  hardlinksRoot : List Item

/-- The same device and inode number. -/
def sameInode (p q : Item) : Bool :=
  p.stat.dev = q.stat.dev && p.stat.ino = q.stat.ino

/-- `classify_file` -/
def classifyFile (c : Collector) (p : Item) : Collector :=
  if p.stat.type = .dir then { c with dirs := c.dirs ++ [p] }
  else if p.stat.type = .reg ∧ 1 < p.stat.nlink then
    match c.hardlinksRoot.find? (sameInode p) with
    | some q => { c with hardlinks := c.hardlinks ++ [(p, q)] }
    | none => { c with
        hardlinksRoot := c.hardlinksRoot ++ [p]
        nonDirs := c.nonDirs ++ [p] }
  else { c with nonDirs := c.nonDirs ++ [p] }

/-! ## What the installation works on -/

/-- What does not change during the installation. -/
structure Setup where
  cwd : Loc
  destdir : Loc
  removePrefix : Option Path
  force : Bool
  /-- the tree in the order of `tree_walk` -/
  files : List Item
  /-- owner and device of new objects -/
  uid : Nat
  gid : Nat
  dev : Nat
  /-- `lchown` does not fail with `EPERM` -/
  privileged : Bool

/-- Where a thread is in `install_file` or `install_hardlink`: the call that comes next. -/
inductive Stage where
  /-- `remove`, in `install_file` or before the link to a target -/
  | remove (target : Option Item)
  /-- the call that makes anything but a regular file -/
  | make
  | access
  | openSource
  | creat (sfd : Nat)
  | allocate (sfd dfd : Nat)
  | copy (sfd dfd : Nat) (c : Copy)
  | link (target : Item)
deriving DecidableEq

/-- Where `main` is: in one of the steps of a round, with what is left of its list, or at an end. -/
inductive Phase where
  | dirs (todo : List Item)
  | pool (todo : List Item)
  | hardlinks (todo : List (Item × Item))
  /-- exit with "unable to create the files listed above" -/
  | uninstalled
  | done
  /-- exit with another error -/
  | exit

def Phase.isDone : Phase → Bool
  | .done => true
  | _ => false

theorem Phase.isDone_iff {ph : Phase} : ph.isDone ↔ ph = .done := by
  cases ph <;> simp [Phase.isDone]

/-- The state of the process. `job` says what each thread is installing; thread 0 is `main`. -/
structure State where
  fs : Fs
  installed : List Item
  /-- the atomic counter `installed` -/
  count : Nat
  prevInstalled : Nat
  methods : Methods
  phase : Phase
  job : Nat → Option (Item × Stage)

/-- What the file systems decide. -/
inductive Choice where
  | go
  /-- the directory to be removed is empty -/
  | empty
  /-- `posix_fallocate` works -/
  | allocated
  | answer (a : Answer)
  /-- `link` fails with `EXDEV`, `EPERM`, `EACCES`, `EOPNOTSUPP` or `EMLINK` -/
  | refused
deriving DecidableEq

namespace Setup

variable (cfg : Setup)

/-- The collections after `tree_walk(classify_file)` and `qsort`. -/
def collector : Collector :=
  let c := cfg.files.foldl classifyFile ⟨[], [], [], []⟩
  { c with dirs := c.dirs.insertionSort fun a b => compareDirOrder a b }

/-- `n_workers` for the number of jobs asked for. -/
def workers (jobs : Nat) : Nat :=
  max 1 (min jobs cfg.collector.nonDirs.length)

/-- `install_path` -/
def path (p : Item) : Path :=
  concat (Loc.path cfg.destdir) p.dst

/-- The target that a symlink gets. -/
def target (t : Path) : Path :=
  match cfg.removePrefix with
  | none => t
  | some pre =>
    if pre ≠ [[]] ∧ pre <+: t then
      if t.length = pre.length then [[], []] else [] :: t.drop pre.length
    else t

def node (body : Body) (perm : Nat) : Inode :=
  ⟨body, perm, cfg.uid, cfg.gid, cfg.dev, 1⟩

/-- `sizeof(sun.sun_path)` -/
def sunPath : Nat := 108

/-- What `install_file` makes, but for regular files. A symlink without target is left out, like a
file without parent directory. -/
def make (fs : Fs) (p : Item) : Except Errno Fs :=
  let make' (body : Body) (perm : Nat) := fs.makeObject cfg.cwd (cfg.path p) (cfg.node body perm)
  match p.stat.type with
  | .dir => make' .dir 0o755
  | .blk => make' (.blk p.stat.dev) p.stat.perm
  | .chr => make' (.chr p.stat.dev) p.stat.perm
  | .lnk =>
    match p.symlink with
    | none => .error .noent
    | some t => make' (.link (cfg.target t)) 0o777
  | .fifo => make' .fifo p.stat.perm
  | .sock =>
    if (text (cfg.path p)).length < sunPath then
      fs.bindSocket cfg.cwd (cfg.path p) (cfg.node .sock 0o777)
    else .error .inval
  | .reg => .error .inval

/-- The first call of `install_file` after `remove`. -/
def first (p : Item) : Stage :=
  if p.stat.type = .reg then .access else .make

/-- The call after `remove`, in `install_file` or in `install_hardlink`. -/
def afterRemove (p : Item) : Option Item → Stage
  | none => first p
  | some q => .link q

/-- The first call of `install_file`. -/
def installFile (p : Item) : Stage :=
  if cfg.force ∧ p.stat.type ≠ .dir then .remove none else first p

/-- `apply_permissions`; `none` if the program exits. -/
def applyPermissions (installed : List Item) (fs : Fs) (p : Item) : Option Fs :=
  if p ∉ installed then some fs
  else do
    let owned ← (fs.lchown cfg.cwd (cfg.path p) p.stat.uid p.stat.gid).toOption
    let fs := if cfg.privileged then owned else fs
    if p.stat.type = .lnk then some fs
    else (fs.chmod cfg.cwd (cfg.path p) p.stat.perm).toOption

/-- The order in which the permissions are applied. -/
def permissionOrder : List Item :=
  let c := cfg.collector
  c.nonDirs ++ c.hardlinks.map Prod.fst ++ c.dirs.reverse

end Setup

namespace State

variable (s : State)

/-- The thread goes on to the next call. -/
def goto (t : Nat) (p : Item) (stage : Stage) : State :=
  { s with job := Function.update s.job t (some (p, stage)) }

/-- `install_file` returns without a mark. -/
def leave (t : Nat) : State :=
  { s with job := Function.update s.job t none }

/-- The label `end`. -/
def finish (t : Nat) (p : Item) : State :=
  { s with
    installed := p :: s.installed
    count := s.count + 1
    job := Function.update s.job t none }

/-- The program exits with an error. -/
def fail : State :=
  { s with phase := .exit }

end State

/-! ## Steps -/

section
variable (cfg : Setup) (s : State) (t : Nat)

/-- A call of a thread that installs `p`. -/
def callStep (p : Item) (c : Choice) : Stage → Option State
  | .remove target =>
    match s.fs.remove cfg.cwd (cfg.path p) (c = .empty) with
    | .ok fs => some ({ s with fs := fs }.goto t p (Setup.afterRemove p target))
    | .error .noent => some (s.goto t p (Setup.afterRemove p target))
    | .error _ => some s.fail
  | .make =>
    match cfg.make s.fs p with
    | .ok fs => some ({ s with fs := fs }.finish t p)
    | .error .exist => some (s.finish t p)
    | .error .noent => some (s.leave t)
    | .error _ => some s.fail
  | .access =>
    match s.fs.resolve cfg.cwd (cfg.path p) with
    | .ok _ => some (s.finish t p)
    | .error _ => some (s.goto t p .openSource)
  | .openSource =>
    match (s.fs.resolve cfg.cwd p.src).toOption.bind s.fs.names with
    | some sfd => some (s.goto t p (.creat sfd))
    | none => some s.fail
  | .creat sfd =>
    match s.fs.creat cfg.cwd (cfg.path p) (cfg.node (.reg []) p.stat.perm) with
    | .ok (fs, dfd) => some ({ s with fs := fs }.goto t p (.allocate sfd dfd))
    | .error .noent => some (s.leave t)
    | .error _ => some s.fail
  | .allocate sfd dfd =>
    let dst := (s.fs.inodes dfd).body.content
    let fs :=
      if c = .allocated then
        s.fs.setContent dfd (dst ++ List.replicate (p.size - dst.length) 0)
      else s.fs
    some ({ s with fs := fs }.goto t p (.copy sfd dfd (startCopy s.methods p.size)))
  | .copy sfd dfd copy =>
    match c with
    | .answer a => do
      let (methods, dst, next) ←
        copy.step (s.fs.inodes sfd).body.content (s.fs.inodes dfd).body.content p.size s.methods a
      let s := { s with
        fs := s.fs.setContent dfd dst
        methods := methods }
      match next with
      | some copy => some (s.goto t p (.copy sfd dfd copy))
      | none => some (s.finish t p)
    | _ => none
  | .link q =>
    if c = .refused then some (s.goto t p (cfg.installFile p))
    else
      match s.fs.link cfg.cwd (cfg.path q) (cfg.path p) with
      | .ok fs => some ({ s with fs := fs }.finish t p)
      | .error .exist => some (s.finish t p)
      | .error .perm => some (s.goto t p (cfg.installFile p))
      | .error _ => some s.fail

/-- The beginning of `install_hardlink`. -/
def installHardlink (p q : Item) : State :=
  if q ∉ s.installed then s.goto t p (cfg.installFile p)
  else if cfg.path p = cfg.path q then s.finish t p
  else s.goto t p (if cfg.force then .remove (some q) else .link q)

/-- The end of a round, and after the last one the end of the run. -/
def endRound : State :=
  if s.count ≠ s.prevInstalled then
    { s with
      prevInstalled := s.count
      phase := .dirs cfg.collector.dirs }
  else if s.count < cfg.files.length then { s with phase := .uninstalled }
  else
    match cfg.permissionOrder.foldlM (cfg.applyPermissions s.installed) s.fs with
    | none => s.fail
    | some fs => { s with
        fs := fs
        phase := .done }

/-- A thread that installs nothing goes on: `main` alone, or in the pool every worker. The lock of
the pool covers the search for the next file, of which one file is looked at here. -/
def controlStep (jobs : Nat) : Option State :=
  match s.phase with
  | .dirs [] => if t = 0 then some { s with phase := .pool cfg.collector.nonDirs } else none
  | .dirs (p :: todo) =>
    if t = 0 then
      let s := { s with phase := .dirs todo }
      some (if p ∈ s.installed then s else s.goto t p (cfg.installFile p))
    else none
  | .pool [] =>
    if t = 0 ∧ ∀ t' < cfg.workers jobs, s.job t' = none then
      some { s with phase := .hardlinks cfg.collector.hardlinks }
    else none
  | .pool (p :: todo) =>
    if t < cfg.workers jobs then
      let s := { s with phase := .pool todo }
      some (if p ∈ s.installed then s else s.goto t p (cfg.installFile p))
    else none
  | .hardlinks [] => if t = 0 then some (endRound cfg s) else none
  | .hardlinks ((p, q) :: todo) =>
    if t = 0 then
      let s := { s with phase := .hardlinks todo }
      some (if p ∈ s.installed then s else installHardlink cfg s t p q)
    else none
  | .uninstalled | .done | .exit => none

/-- A step of the thread `t`. -/
def step (jobs : Nat) (c : Choice) : Option State :=
  match s.phase with
  | .uninstalled | .done | .exit => none
  | _ =>
    match s.job t with
    | some (p, stage) => callStep cfg s t p c stage
    | none => controlStep cfg s t jobs

end

/-- The state in which the copying begins. -/
def start (cfg : Setup) (fs : Fs) : State where
  fs := fs
  installed := []
  count := 0
  prevInstalled := 0
  methods := ⟨true, true⟩
  phase := .dirs cfg.collector.dirs
  job _ := none

/-- The runs of the installation in a file system with `--jobs=jobs`. -/
def installation (cfg : Setup) (fs : Fs) (jobs : Nat) : Lts State (Nat × Choice) where
  init s := s = start cfg fs
  step s l := step cfg s l.1 jobs l.2

end

/-! ## The three collections -/

/-- The collections hold the given files. -/
structure Classified (files : List Item) (c : Collector) : Prop where
  perm : (c.dirs ++ c.nonDirs ++ c.hardlinks.map Prod.fst).Perm files
  dirs (p : Item) : p ∈ c.dirs → p.stat.type = .dir
  nonDirs (p : Item) : p ∈ c.nonDirs → p.stat.type ≠ .dir
  hardlinks (p q : Item) : (p, q) ∈ c.hardlinks → p.stat.type = .reg ∧ q ∈
    c.hardlinksRoot ∧ sameInode p q
  root (q : Item) : q ∈ c.hardlinksRoot → q ∈ c.nonDirs ∧ q.stat.type = .reg

variable {files : List Item} {c : Collector} {p q : Item}

section
variable (h : Classified files c)
include h

theorem Classified.addDir (hp : p.stat.type = .dir) :
    Classified (files ++ [p]) { c with dirs := c.dirs ++ [p] } where
  perm := by
    have hmove : (c.dirs ++ [p] ++ c.nonDirs ++ c.hardlinks.map Prod.fst).Perm
        (c.dirs ++ c.nonDirs ++ c.hardlinks.map Prod.fst ++ [p]) := by
      simp only [append_assoc]
      have hlast : ([p] ++ (c.nonDirs ++ c.hardlinks.map Prod.fst)).Perm _ := perm_append_comm
      rw [append_assoc] at hlast
      exact hlast.append_left _
    exact hmove.trans (h.perm.append_right [p])
  dirs q hq := by
    rcases mem_append.1 hq with hq | hq
    · exact h.dirs q hq
    · exact mem_singleton.1 hq ▸ hp
  nonDirs := h.nonDirs
  hardlinks := h.hardlinks
  root := h.root

theorem perm_addNonDir :
    (c.dirs ++ (c.nonDirs ++ [p]) ++ c.hardlinks.map Prod.fst).Perm (files ++ [p]) := by
  have hmove : (c.dirs ++ (c.nonDirs ++ [p]) ++ c.hardlinks.map Prod.fst).Perm
      (c.dirs ++ c.nonDirs ++ c.hardlinks.map Prod.fst ++ [p]) := by
    simp only [append_assoc]
    have hlast : ([p] ++ c.hardlinks.map Prod.fst).Perm _ := perm_append_comm
    exact (hlast.append_left _).append_left _
  exact hmove.trans (h.perm.append_right [p])

theorem Classified.addNonDir (hp : p.stat.type ≠ .dir) :
    Classified (files ++ [p]) { c with nonDirs := c.nonDirs ++ [p] } where
  perm := perm_addNonDir h
  dirs := h.dirs
  nonDirs q hq := by
    rcases mem_append.1 hq with hq | hq
    · exact h.nonDirs q hq
    · exact mem_singleton.1 hq ▸ hp
  hardlinks := h.hardlinks
  root q hq := ⟨mem_append_left _ (h.root q hq).1, (h.root q hq).2⟩

theorem Classified.addRoot (hp : p.stat.type = .reg) : Classified (files ++ [p]) { c with
      hardlinksRoot := c.hardlinksRoot ++ [p]
      nonDirs := c.nonDirs ++ [p] } where
  perm := perm_addNonDir h
  dirs := h.dirs
  nonDirs := (h.addNonDir (hp ▸ nofun)).nonDirs
  hardlinks p' q' hq := by
    obtain ⟨hreg, hroot, hsame⟩ := h.hardlinks p' q' hq
    exact ⟨hreg, mem_append_left _ hroot, hsame⟩
  root q hq := by
    rcases mem_append.1 hq with hq | hq
    · exact ⟨mem_append_left _ (h.root q hq).1, (h.root q hq).2⟩
    · cases mem_singleton.1 hq
      exact ⟨mem_append_right _ (mem_singleton_self p), hp⟩

theorem Classified.addHardlink (hp : p.stat.type = .reg)
    (hq : c.hardlinksRoot.find? (sameInode p) = some q) :
    Classified (files ++ [p]) { c with hardlinks := c.hardlinks ++ [(p, q)] } where
  perm := by
    rw [map_append, ← append_assoc]
    exact h.perm.append_right [p]
  dirs := h.dirs
  nonDirs := h.nonDirs
  hardlinks p' q' he := by
    rcases mem_append.1 he with he | he
    · exact h.hardlinks p' q' he
    · cases mem_singleton.1 he
      exact ⟨hp, mem_of_find?_eq_some hq, find?_some hq⟩
  root := h.root

theorem classified_classifyFile : Classified (files ++ [p]) (classifyFile c p) := by
  unfold classifyFile
  split
  · next hdir => exact h.addDir hdir
  · next hdir =>
    split
    · next hreg =>
      cases hq : c.hardlinksRoot.find? (sameInode p) with
      | none => exact h.addRoot hreg.1
      | some q => exact h.addHardlink hreg.1 hq
    · exact h.addNonDir hdir

theorem classified_foldl {fs : List Item} : Classified (files ++ fs) (fs.foldl classifyFile c) := by
  induction fs generalizing files c with
  | nil => rwa [append_nil]
  | cons p fs ih =>
    rw [append_cons]
    exact ih (classified_classifyFile h)

end

section
variable (h : Classified files c)

include h

theorem Classified.mem_dirs (hp : p ∈ c.dirs) : p ∈ files :=
  h.perm.subset (mem_append_left _ (mem_append_left _ hp))

theorem Classified.mem_nonDirs (hp : p ∈ c.nonDirs) : p ∈ files :=
  h.perm.subset (mem_append_left _ (mem_append_right _ hp))

theorem Classified.mem_hardlinks (hp : (p, q) ∈ c.hardlinks) : p ∈ files :=
  h.perm.subset (mem_append_right _ (mem_map_of_mem hp))

end

theorem classified (cfg : Setup) : Classified cfg.files cfg.collector := by
  have h₀ : Classified [] ⟨[], [], [], []⟩ := ⟨.nil, nofun, nofun, nofun, nofun⟩
  have h : Classified cfg.files (cfg.files.foldl classifyFile ⟨[], [], [], []⟩) :=
    classified_foldl h₀
  have hsort := perm_insertionSort (fun a b => compareDirOrder a b)
    (cfg.files.foldl classifyFile ⟨[], [], [], []⟩).dirs
  exact {
    perm := ((hsort.append_right _).append_right _).trans h.perm
    dirs := fun p hp => h.dirs p (hsort.mem_iff.1 hp)
    nonDirs := h.nonDirs
    hardlinks := h.hardlinks
    root := h.root }

end MakeInitrd.Put
