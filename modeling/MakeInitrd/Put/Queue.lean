import MakeInitrd.Lib.Fs
import MakeInitrd.Lib.Loop

/-!
# The work queue of `initrd-put`

`enqueue_item` adds to `inqueue` at the head while the main loop goes through it towards the tail;
when the loop comes to the end it starts again at the new head. So the queue is what was added since
the loop last started at the head (`ahead`) and what is left of this pass (`rest`). `files` is the
tree of files that have been taken up. What the file systems and the files themselves say is a
parameter (`Env`).
-/

namespace MakeInitrd.Put

open Posix Loop

/-- A `struct file`. A `stat` that has not been filled in has inode number zero. -/
structure File where
  src : Path
  dst : Path
  symlink : Option Path
  stat : Option Stat
  recursive : Bool
deriving DecidableEq

/-- `f->recursive = b` -/
def File.setRecursive (b : Bool) (f : File) : File :=
  { f with recursive := b }

/-- `fill_stat` -/
def File.fillStat (st : Stat) (f : File) : File :=
  { f with stat := some st }

/-- What `lstat` says about a place in the destination. -/
inductive DestStat where
  | absent
  | directory
  | nonDirectory
  /-- an error other than `ENOENT` -/
  | error
deriving DecidableEq

/-- What the main loop asks for. -/
structure Env where
  /-- `--remove-prefix` -/
  removePrefix : Option Path
  /-- some regular expression of `--exclude` matches -/
  excluded : Path → Bool
  /-- `--force` -/
  force : Bool
  /-- `lstat` of `destdir` and this path -/
  dest : Path → DestStat
  /-- `lstat`; `none` if it fails -/
  lstat : Path → Option Stat
  /-- `readlink`; `none` if it fails -/
  readlink : Path → Option Path
  /-- the symlinks met on the way and the resolved path; `none` if the program exits -/
  canonicalize : Path → Option (List Path × Path)
  /-- the entries a physical walk from a directory meets, with their `stat` -/
  walk : Path → List (Path × Stat)
  /-- what a regular file depends on; `none` if it cannot be read -/
  deps : Path → Option (List Path)

/-- The `stat` of a file when it is processed: `lstat` unless it was filled in. -/
def Env.statOf (env : Env) (f : File) : Option Stat :=
  match f.stat with
  | some st => some st
  | none => env.lstat f.src

/-- The queue and the tree, with `tree_files_nr`. -/
structure Work where
  ahead : List File
  rest : List File
  tree : List File
  treeFilesNr : Nat
deriving DecidableEq

namespace Work

variable (w : Work)

def queue : List File := w.ahead ++ w.rest

/-- `is_path_queued` -/
def isPathQueued (path : Path) : Bool :=
  w.queue.any fun f => f.src = path

def inTree (path : Path) : Bool :=
  w.tree.any fun f => f.src = path

/-- `is_path_added` -/
def isPathAdded (path : Path) : Bool :=
  w.inTree path || w.isPathQueued path

/-- A change to the queued item of a path. -/
def update (path : Path) (change : File → File) : Work :=
  let at' (f : File) := if f.src = path then change f else f
  { w with
    ahead := w.ahead.map at'
    rest := w.rest.map at' }

/-- `enqueue_item`, and what the caller does with the item it gets unless that is NULL. -/
def enqueueItem (env : Env) (path : Path) (change : File → File) : Work :=
  if env.excluded path then w
  else if w.isPathQueued path then w.update path change
  else if w.inTree path then w
  else { w with ahead := change ⟨path, [], none, none, false⟩ :: w.ahead }

/-- `enqueue_item` for each path, without a use of the items. -/
def enqueueItems (env : Env) (paths : List Path) : Work :=
  paths.foldl (fun w p => w.enqueueItem env p id) w

/-- `enqueue_parent_directory` -/
def enqueueParentDirectory (env : Env) (path : Path) : Work :=
  if env.removePrefix = some path then w
  else
    match parent? path with
    | none => w
    | some p => w.enqueueItem env p id

/-- `enqueue_canonicalized_path`; `none` if the program exits. -/
def enqueueCanonicalizedPath (env : Env) (name : Path) (addRecursively : Bool) : Option Work := do
  let (links, rname) ← env.canonicalize name
  some ((w.enqueueItems env links).enqueueItem env rname (.setRecursive addRecursively))

/-- The body of the loop of `enqueue_directory`. -/
def enqueueEntry (env : Env) (e : Path × Stat) : Work :=
  if w.isPathAdded e.1 then w else w.enqueueItem env e.1 (.fillStat e.2)

/-- `enqueue_directory` -/
def enqueueDirectory (env : Env) (path : Path) : Work :=
  (env.walk path).foldl (fun w e => w.enqueueEntry env e) w

/-- `enqueue_path`, with the file as it is afterwards; `none` if the program exits. -/
def enqueuePath (env : Env) (p : File) : Option (File × Work) :=
  if !w.isPathAdded p.src then some (p, w)
  else do
    let st ← env.statOf p
    let p := p.fillStat st
    let w := w.enqueueParentDirectory env p.src
    match st.type with
    | .dir => some (p, if p.recursive then w.enqueueDirectory env p.src else w)
    | .lnk =>
      let p := { p with symlink := env.readlink p.src }
      let w ← w.enqueueCanonicalizedPath env p.src false
      some (p, w)
    | .reg =>
      let ds ← env.deps p.src
      some (p, w.enqueueItems env ds)
    | _ => some (p, w)

end Work

/-- `dst`, or the target of a symlink, without the removed prefix. -/
def stripPrefix (env : Env) (path : Path) : Path :=
  match env.removePrefix with
  | none => path
  | some pre =>
    if pre ≠ [[]] ∧ pre <+: path then [] :: path.drop pre.length else path

/-- How the main loop ends: with the tree and `tree_files_nr`, or by an exit with an error. -/
inductive Outcome where
  | finished (tree : List File) (treeFilesNr : Nat)
  | exit
deriving DecidableEq

/-- One round of the main loop: the item at `queue`, or a new start at the head. -/
def mainRound (env : Env) (w : Work) : Next Work Outcome :=
  match w.rest with
  | [] =>
    match w.ahead with
    | [] => .done (.finished w.tree w.treeFilesNr)
    | ahead => .again { w with ahead := [], rest := ahead }
  | q :: next =>
    let q := { q with dst := stripPrefix env q.src }
    let found := if env.force then DestStat.absent else env.dest q.dst
    match found with
    | .error => .done .exit
    | .nonDirectory => .again { w with rest := next }
    | _ =>
      -- `tree_add_file` finds a file of this path in the tree or adds this one
      if w.inTree q.src then .again { w with rest := next }
      else
        match { w with tree := q :: w.tree }.enqueuePath env q with
        | none => .done .exit
        | some (p, w') => .again { w' with
            rest := w'.rest.tail
            tree := p :: w.tree
            treeFilesNr := w.treeFilesNr + 1 }

/-- The queue for the command line; `none` if the program exits. -/
def enqueueArguments (env : Env) (args : List Path) : Option Work :=
  args.foldlM (fun w a => w.enqueueCanonicalizedPath env a true) ⟨[], [], [], 0⟩

/-- The part of `main` up to the empty queue. -/
def Collects (env : Env) (args : List Path) (r : Outcome) : Prop :=
  match enqueueArguments env args with
  | none => r = .exit
  | some w => Returns (mainRound env) w r

theorem collects_of_run {env : Env} {args : List Path} {n : Nat} {r : Outcome}
    (h : (enqueueArguments env args).bind (run (mainRound env) n) = some r) :
    Collects env args r := by
  obtain ⟨w, hw, hrun⟩ := Option.bind_eq_some_iff.1 h
  unfold Collects
  rw [hw]
  exact ⟨n, hrun⟩

theorem Collects.unique {env : Env} {args : List Path} {r r' : Outcome} (h : Collects env args r)
    (h' : Collects env args r') : r = r' := by
  unfold Collects at h h'
  cases hw : enqueueArguments env args with
  | none =>
    rw [hw] at h h'
    exact h.trans h'.symm
  | some w =>
    rw [hw] at h h'
    exact Returns.unique h h'

end MakeInitrd.Put
