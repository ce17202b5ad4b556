import MakeInitrd.Lib.CMem

/-!
# A POSIX file system

A path is a string, kept as the list of what stands between its slashes: `/usr//lib` is the list of
the empty name, `usr`, the empty name and `lib`. An object is at a `Loc`, the list of names that
lead to it from the root without symlinks. `Fs.resolve` is the lookup of the kernel; `Fs.slot` is
that of the calls that do not follow the last symlink.
-/

namespace Posix

open CMem

/-! ## Paths -/

/-- What stands between two slashes of a path. -/
abbrev Name := Bytes

/-- A path as it is written, cut at its slashes. -/
abbrev Path := List Name

abbrev Loc := List Name

/-- The names `.` and `..`. -/
def dot : Name := [46]

@[inherit_doc dot]
def dotDot : Name := [46, 46]

/-- The names that are not looked up in a directory. -/
def special (c : Name) : Bool :=
  c = [] || c = dot || c = dotDot

def isAbsolute : Path → Bool
  | [] :: _ :: _ => true
  | _ => false

/-- Two strings, one after the other. -/
def concat (p : Path) : Path → Path
  | [] => p
  | c :: cs => p.dropLast ++ (p.getLast?.getD [] ++ c) :: cs

/-- The absolute path of an object. -/
def Loc.path : Loc → Path
  | [] => [[], []]
  | n :: l => [] :: n :: l

/-- What stands before the last slash, unless that is the first character. -/
def parent? (p : Path) : Option Path :=
  if p.length ≤ 1 ∨ p.length = 2 ∧ p.head? = some [] then none else some p.dropLast

theorem parent?_eq_some {p q : Path} (h : parent? p = some q) : q = p.dropLast := by
  unfold parent? at h
  split at h
  · cases h
  · exact (Option.some.inj h).symm

/-! ## Objects -/

/-- The file types of `st_mode`. -/
inductive FileType where
  | reg
  | dir
  | lnk
  | blk
  | chr
  | fifo
  | sock
deriving DecidableEq

inductive Body where
  | dir
  | link (target : Path)
  | reg (content : Bytes)
  | blk (rdev : Nat)
  | chr (rdev : Nat)
  | fifo
  | sock
deriving DecidableEq

def Body.type : Body → FileType
  | .dir => .dir
  | .link _ => .lnk
  | .reg _ => .reg
  | .blk _ => .blk
  | .chr _ => .chr
  | .fifo => .fifo
  | .sock => .sock

/-- `st_rdev`: the device number of a device. -/
def Body.rdev : Body → Nat
  | .blk rdev | .chr rdev => rdev
  | _ => 0

/-- An inode. `dev` is the device it is on. -/
structure Inode where
  body : Body
  perm : Nat
  uid : Nat
  gid : Nat
  dev : Nat
  nlink : Nat

/-- `struct stat`; the size is the length of the content. -/
structure Stat where
  type : FileType
  perm : Nat
  uid : Nat
  gid : Nat
  dev : Nat
  ino : Nat
  rdev : Nat
  nlink : Nat
deriving DecidableEq

/-- A file system: where there are objects, and which. Every object but the root is in a
directory. -/
structure Fs where
  names : Loc → Option Nat
  inodes : Nat → Inode
  /-- inode numbers from here on are free -/
  next : Nat
  root_dir : ((names []).map fun i => (inodes i).body) = some .dir
  parent_dir (l : Loc) (n : Name) : names (l ++ [n]) ≠ none →
    ((names l).map fun i => (inodes i).body) = some .dir
  lt_next (l : Loc) (i : Nat) : names l = some i → i < next
  finite : {l | names l ≠ none}.Finite

namespace Fs

variable (fs : Fs)

def body? (l : Loc) : Option Body :=
  (fs.names l).map fun i => (fs.inodes i).body

/-- `lstat` of what is at a location. -/
def stat? (l : Loc) : Option Stat :=
  (fs.names l).map fun i =>
    let n := fs.inodes i
    ⟨n.body.type, n.perm, n.uid, n.gid, n.dev, i, n.body.rdev, n.nlink⟩

theorem body?_eq_none {l : Loc} : fs.body? l = none ↔ fs.names l = none :=
  Option.map_eq_none_iff

theorem stat?_type {l : Loc} {st : Stat} (h : fs.stat? l = some st) :
    ∃ b, fs.body? l = some b ∧ st.type = b.type := by
  obtain ⟨i, hi, rfl⟩ := Option.map_eq_some_iff.1 h
  exact ⟨_, congrArg _ hi, rfl⟩

theorem body?_of_append {l m : Loc} (hm : m ≠ []) (h : fs.body? (l ++ m) ≠ none) :
    fs.body? l = some .dir := by
  induction m using List.reverseRecOn generalizing l with
  | nil => exact absurd rfl hm
  | append_singleton m n ih =>
    rw [← List.append_assoc] at h
    have hdir := fs.parent_dir (l ++ m) n fun hnone => h (fs.body?_eq_none.2 hnone)
    by_cases hnil : m = []
    · rw [hnil, List.append_nil] at hdir
      exact hdir
    · refine ih hnil fun hnone => ?_
      cases hnone.symm.trans hdir

theorem body?_of_prefix {l l' : Loc} (hl : l <+: l') (h : fs.body? l' ≠ none) :
    fs.body? l ≠ none := by
  obtain ⟨m, rfl⟩ := hl
  by_cases hm : m = []
  · rwa [hm, List.append_nil] at h
  · rw [fs.body?_of_append hm h]
    exact nofun

/-- The number of the inode at a location, in a list of them. -/
def find (es : List (Loc × Nat)) (l : Loc) : Option Nat :=
  (es.find? fun e => e.1 = l).map Prod.snd

theorem mem_of_find {es : List (Loc × Nat)} {l : Loc} {i : Nat} (h : find es l = some i) :
    (l, i) ∈ es := by
  obtain ⟨e, he, rfl⟩ := Option.map_eq_some_iff.1 h
  have hl := List.find?_some he
  rw [decide_eq_true_eq] at hl
  exact hl ▸ List.mem_of_find?_eq_some he

/-- The file system with the given names and inodes. -/
def ofList (es : List (Loc × Nat)) (inodes : Nat → Inode) (next : Nat)
    (hroot : ((find es []).map fun i => (inodes i).body) = some .dir)
    (hparent : ∀ e ∈ es, e.1 ≠ [] →
      ((find es e.1.dropLast).map fun i => (inodes i).body) = some .dir)
    (hnext : ∀ e ∈ es, e.2 < next) : Fs where
  names := find es
  inodes := inodes
  next := next
  root_dir := hroot
  parent_dir l n h := by
    obtain ⟨i, hi⟩ := Option.ne_none_iff_exists'.1 h
    have hdir := hparent _ (mem_of_find hi)
      (List.append_ne_nil_of_right_ne_nil l (List.cons_ne_nil n []))
    rwa [List.dropLast_concat] at hdir
  lt_next l i h := hnext _ (mem_of_find h)
  finite := by
    refine ((List.finite_toSet es).image Prod.fst).subset fun l hl => ?_
    obtain ⟨i, hi⟩ := Option.ne_none_iff_exists'.1 hl
    exact ⟨(l, i), mem_of_find hi, rfl⟩

end Fs

/-! ## Lookup -/

inductive Errno where
  /-- `ENOENT` -/
  | noent
  /-- `ENOTDIR` -/
  | notdir
  /-- `ELOOP` -/
  | loop
  /-- `EEXIST` -/
  | exist
  /-- `EPERM` -/
  | perm
  /-- `EISDIR` -/
  | isdir
  /-- `ENXIO` -/
  | nxio
  /-- `ENOTEMPTY` -/
  | notempty
  /-- `EADDRINUSE` -/
  | addrinuse
  /-- `EINVAL` -/
  | inval
deriving DecidableEq

/-- The components of a path from the directory `dir` on, up to the next symlink; `follow` goes on
with its target. -/
def walkFrom (look : Loc → Option Body) (follow : Loc → Path → Except Errno Loc) (dir : Loc) :
    Path → Except Errno Loc
  | [] => .ok dir
  | c :: cs =>
    if look dir ≠ some .dir then .error .notdir
    else if c = [] ∨ c = dot then walkFrom look follow dir cs
    else if c = dotDot then walkFrom look follow dir.dropLast cs
    else
      match look (dir ++ [c]) with
      | none => .error .noent
      | some (.link t) => follow (if isAbsolute t then [] else dir) (t ++ cs)
      | some _ => walkFrom look follow (dir ++ [c]) cs

/-- The walk with fewer than the given number of symlinks. -/
def walk (look : Loc → Option Body) : Nat → Loc → Path → Except Errno Loc
  | 0 => fun _ _ => .error .loop
  | n + 1 => walkFrom look (walk look n)

/-- The kernel follows 40 symlinks. -/
def maxLinks : Nat := 40

namespace Fs

variable (fs : Fs) (cwd : Loc)

/-- The lookup that follows every symlink. -/
def resolve (p : Path) : Except Errno Loc :=
  if p = [[]] then .error .noent
  else walk fs.body? (maxLinks + 1) (if isAbsolute p then [] else cwd) p

/-- The place a path names, whether there is something or not: the last component is not followed.
-/
def slot (p : Path) : Except Errno Loc :=
  match p.getLast? with
  | none => .error .noent
  | some c =>
    if special c then resolve fs cwd p
    else
      match walk fs.body? (maxLinks + 1) (if isAbsolute p then [] else cwd) p.dropLast with
      | .error e => .error e
      | .ok d => if fs.body? d = some .dir then .ok (d ++ [c]) else .error .notdir

/-- `lstat` -/
def lstat (p : Path) : Except Errno Stat :=
  match fs.slot cwd p with
  | .error e => .error e
  | .ok l =>
    match fs.stat? l with
    | none => .error .noent
    | some st => .ok st

variable {fs cwd}

theorem lstat_eq_ok {p : Path} {st : Stat} (h : fs.lstat cwd p = .ok st) :
    ∃ l, fs.slot cwd p = .ok l ∧ fs.stat? l = some st := by
  unfold lstat at h
  split at h
  · cases h
  · next l hslot =>
    split at h
    · cases h
    · next st' hst =>
      cases h
      exact ⟨l, hslot, hst⟩

variable (fs cwd)

/-- `readlink`, which fails unless the path names a symlink. -/
def readlink (p : Path) : Option Path :=
  match fs.slot cwd p with
  | .error _ => none
  | .ok l =>
    match fs.body? l with
    | some (.link t) => some t
    | _ => none

end Fs

end Posix
