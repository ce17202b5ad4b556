import MakeInitrd.Lib.FsLookup

/-!
# Calls that change a file system

The calls are made of four changes: a new inode, a new name, another content or other attributes of
an inode, and a name less. But for the last they only add objects (`Fs.Grows`).
-/

namespace Posix

open CMem

namespace Body

/-- What can be read from an open file. -/
def content : Body → Bytes
  | .reg c => c
  | _ => []

/-- What an open file is after it got this content; what is written to a device is not kept. -/
def withContent (b : Body) (c : Bytes) : Body :=
  match b with
  | .reg _ => .reg c
  | b => b

theorem alike_withContent (b : Body) (c : Bytes) : b.Alike (b.withContent c) := by
  cases b <;> trivial

end Body

/-- What can be seen of an object, but for its numbers. -/
structure Object where
  body : Body
  perm : Nat
  uid : Nat
  gid : Nat
deriving DecidableEq

def Inode.object (x : Inode) : Object :=
  ⟨x.body, x.perm, x.uid, x.gid⟩

namespace Fs

variable {fs fs' fs'' : Fs} {cwd l : Loc} {p : Path}

def object? (fs : Fs) (l : Loc) : Option Object :=
  (fs.names l).map fun i => (fs.inodes i).object

/-- The inode at the place that a path names. -/
def inodeAt (fs : Fs) (cwd : Loc) (p : Path) : Option Nat :=
  (fs.slot cwd p).toOption.bind fs.names

theorem inodeAt_eq_some {i : Nat} (h : fs.slot cwd p = .ok l) (hi : fs.names l = some i) :
    fs.inodeAt cwd p = some i := by
  unfold inodeAt
  rw [h]
  exact hi

/-! ## Changes -/

variable (fs)

def alloc (x : Inode) : Fs where
  names := fs.names
  inodes := Function.update fs.inodes fs.next x
  next := fs.next + 1
  root_dir := by
    obtain ⟨i, hi, hdir⟩ := Option.map_eq_some_iff.1 fs.root_dir
    rw [hi, Option.map_some, Function.update_of_ne (fs.lt_next _ _ hi).ne, hdir]
  parent_dir l n h := by
    obtain ⟨i, hi, hdir⟩ := Option.map_eq_some_iff.1 (fs.parent_dir l n h)
    rw [hi, Option.map_some, Function.update_of_ne (fs.lt_next _ _ hi).ne, hdir]
  lt_next l i h := (fs.lt_next l i h).trans (Nat.lt_succ_self _)
  finite := fs.finite

def insert (l : Loc) (i : Nat) (hl : fs.Free l) (hi : i < fs.next) : Fs where
  names := Function.update fs.names l (some i)
  inodes := fs.inodes
  next := fs.next
  root_dir := by
    rw [Function.update_of_ne hl.ne_root.symm]
    exact fs.root_dir
  parent_dir d n h := by
    -- the parent of the new name was there, and nothing stands below the new name
    have hd : d ≠ l := by
      rintro rfl
      rw [Function.update_of_ne (by simp)] at h
      have hdir := fs.parent_dir d n h
      rw [hl.empty] at hdir
      cases hdir
    rw [Function.update_of_ne hd]
    by_cases heq : d ++ [n] = l
    · have hdir := hl.parent
      rwa [← heq, List.dropLast_concat] at hdir
    · rw [Function.update_of_ne heq] at h
      exact fs.parent_dir d n h
  lt_next l' j h := by
    by_cases heq : l' = l
    · rw [heq, Function.update_self] at h
      cases h
      exact hi
    · rw [Function.update_of_ne heq] at h
      exact fs.lt_next l' j h
  finite := by
    refine (fs.finite.insert l).subset fun l' hl' => ?_
    by_cases heq : l' = l
    · exact .inl heq
    · exact .inr fun hnone => hl' ((Function.update_of_ne heq _ _).trans hnone)

variable {fs} in
theorem map_body_update {i : Nat} {x : Inode} (hx : x.body = .dir ↔ (fs.inodes i).body = .dir)
    (h : fs.body? l = some .dir) :
    ((fs.names l).map fun j => (Function.update fs.inodes i x j).body) = some .dir := by
  obtain ⟨j, hj, hdir⟩ := Option.map_eq_some_iff.1 h
  rw [hj, Option.map_some]
  by_cases heq : j = i
  · rw [heq, Function.update_self, hx.2 (heq ▸ hdir)]
  · rw [Function.update_of_ne heq, hdir]

/-- Other attributes or another content of an inode. -/
def modify (i : Nat) (g : Inode → Inode) (hg : ∀ x, (g x).body = .dir ↔ x.body = .dir) : Fs where
  names := fs.names
  inodes := Function.update fs.inodes i (g (fs.inodes i))
  next := fs.next
  root_dir := map_body_update (hg _) fs.root_dir
  parent_dir l n h := map_body_update (hg _) (fs.parent_dir l n h)
  lt_next := fs.lt_next
  finite := fs.finite

/-- Without an object and what is below it. -/
def erase (l : Loc) (hl : l ≠ []) : Fs where
  names l' := if l <+: l' then none else fs.names l'
  inodes := fs.inodes
  next := fs.next
  root_dir := by
    rw [if_neg (by simpa using hl)]
    exact fs.root_dir
  parent_dir d n h := by
    split at h
    · exact absurd rfl h
    · next hnot =>
      rw [if_neg fun hpre => hnot (hpre.trans (List.prefix_append d [n]))]
      exact fs.parent_dir d n h
  lt_next l' i h := by
    split at h
    · cases h
    · exact fs.lt_next l' i h
  finite := by
    refine fs.finite.subset fun l' hl' hnone => hl' ?_
    show (if l <+: l' then none else fs.names l') = none
    rw [hnone, ite_self]

variable {fs} in
theorem Free.alloc {l : Loc} (h : fs.Free l) (x : Inode) : (fs.alloc x).Free l where
  ne_root := h.ne_root
  empty := h.empty
  parent := by
    obtain ⟨i, hi, hdir⟩ := Option.map_eq_some_iff.1 h.parent
    show ((fs.names l.dropLast).map fun i => (Function.update fs.inodes fs.next x i).body) = _
    rw [hi, Option.map_some, Function.update_of_ne (fs.lt_next _ _ hi).ne, hdir]

/-- Another content of a regular file. -/
def setContent (i : Nat) (c : Bytes) : Fs :=
  fs.modify i (fun x => { x with body := x.body.withContent c }) fun x => by
    show x.body.withContent c = .dir ↔ x.body = .dir
    cases x.body <;> simp [Body.withContent]

def setOwner (i uid gid : Nat) : Fs :=
  fs.modify i (fun x => { x with uid := uid, gid := gid }) fun _ => Iff.rfl

def setPerm (i perm : Nat) : Fs :=
  fs.modify i (fun x => { x with perm := perm }) fun _ => Iff.rfl

/-- A further name of an inode. -/
def addName (l : Loc) (i : Nat) (hl : fs.Free l) (hi : i < fs.next) : Fs :=
  (fs.insert l i hl hi).modify i (fun x => { x with nlink := x.nlink + 1 }) fun _ => Iff.rfl

def create (l : Loc) (x : Inode) (h : fs.Free l) : Fs :=
  (fs.alloc x).insert l fs.next (h.alloc x) (Nat.lt_succ_self _)

section
variable {fs} {l l' : Loc} {x : Inode} {i : Nat} {g : Inode → Inode}

@[simp] theorem names_create_self (h : fs.Free l) : (fs.create l x h).names l = some fs.next :=
  Function.update_self ..

@[simp] theorem names_addName_self (h : fs.Free l) (hi : i < fs.next) :
    (fs.addName l i h hi).names l = some i :=
  Function.update_self ..

theorem names_create_of_ne (h : fs.Free l) (hne : l' ≠ l) :
    (fs.create l x h).names l' = fs.names l' :=
  Function.update_of_ne hne ..

theorem names_addName_of_ne (h : fs.Free l) (hi : i < fs.next) (hne : l' ≠ l) :
    (fs.addName l i h hi).names l' = fs.names l' :=
  Function.update_of_ne hne ..

@[simp] theorem inodes_create_self (h : fs.Free l) : (fs.create l x h).inodes fs.next = x :=
  Function.update_self ..

theorem inodes_create_of_lt (h : fs.Free l) (hi : i < fs.next) :
    (fs.create l x h).inodes i = fs.inodes i :=
  Function.update_of_ne hi.ne ..

theorem inodes_modify (hg : ∀ x, (g x).body = .dir ↔ x.body = .dir) (j : Nat) :
    (fs.modify i g hg).inodes j = if j = i then g (fs.inodes j) else fs.inodes j := by
  split
  · next hj =>
    rw [hj]
    exact Function.update_self ..
  · next hj => exact Function.update_of_ne hj ..

theorem inodes_setContent_of_ne {j : Nat} (hne : j ≠ i) (c : Bytes) :
    (fs.setContent i c).inodes j = fs.inodes j := by
  unfold setContent
  rw [inodes_modify, if_neg hne]

theorem object_setContent_self (c : Bytes) : ((fs.setContent i c).inodes i).object =
      { (fs.inodes i).object with body := (fs.inodes i).body.withContent c } := by
  unfold setContent
  rw [inodes_modify, if_pos rfl]
  rfl

theorem inodes_addName_of_ne {j : Nat} (h : fs.Free l) (hi : i < fs.next) (hne : j ≠ i) :
    (fs.addName l i h hi).inodes j = fs.inodes j := by
  unfold addName
  rw [inodes_modify, if_neg hne]
  rfl

theorem object_addName (h : fs.Free l) (hi : i < fs.next) (j : Nat) :
    ((fs.addName l i h hi).inodes j).object = (fs.inodes j).object := by
  unfold addName
  rw [inodes_modify]
  split <;> rfl

theorem Free.ne_of_names (h : fs.Free l) (hi : fs.names l' = some i) : l' ≠ l := by
  rintro rfl
  cases hi.symm.trans h.empty

end

/-! ## Growth -/

/-- `fs'` is `fs` with more objects: no name is lost, and no inode became something else. -/
structure Grows (fs fs' : Fs) : Prop where
  names (l : Loc) (i : Nat) : fs.names l = some i → fs'.names l = some i
  alike (i : Nat) : i < fs.next → (fs.inodes i).body.Alike (fs'.inodes i).body
  next : fs.next ≤ fs'.next

section
variable {fs} {l : Loc} {x : Inode} {i : Nat} {g : Inode → Inode}

theorem Grows.refl (fs : Fs) : fs.Grows fs :=
  ⟨fun _ _ h => h, fun _ _ => .refl _, le_rfl⟩

theorem Grows.trans (h : fs.Grows fs') (h' : fs'.Grows fs'') : fs.Grows fs'' :=
  ⟨fun l i hi => h'.names l i (h.names l i hi),
    fun i hi => (h.alike i hi).trans (h'.alike i (hi.trans_le h.next)), h.next.trans h'.next⟩

theorem Grows.below (h : fs.Grows fs') : fs.Below fs' := by
  intro l b hb
  obtain ⟨i, hi, rfl⟩ := Option.map_eq_some_iff.1 hb
  exact ⟨_, congrArg _ (h.names l i hi), h.alike i (fs.lt_next l i hi)⟩

theorem grows_create (h : fs.Free l) : fs.Grows (fs.create l x h) where
  names _ _ hi := (names_create_of_ne h (h.ne_of_names hi)).trans hi
  alike _ hi := inodes_create_of_lt h hi ▸ .refl _
  next := Nat.le_succ _

theorem grows_modify {hg : ∀ x, (g x).body = .dir ↔ x.body = .dir}
    (halike : (fs.inodes i).body.Alike (g (fs.inodes i)).body) : fs.Grows (fs.modify i g hg) where
  names _ _ h := h
  alike j _ := by
    rw [inodes_modify]
    split
    · next hj =>
      rw [hj]
      exact halike
    · exact .refl _
  next := le_rfl

theorem grows_setContent (i : Nat) (c : Bytes) : fs.Grows (fs.setContent i c) :=
  grows_modify (Body.alike_withContent _ c)

theorem grows_addName (h : fs.Free l) (hi : i < fs.next) : fs.Grows (fs.addName l i h hi) := by
  have hinsert : fs.Grows (fs.insert l i h hi) :=
    ⟨fun _ _ hj => (Function.update_of_ne (h.ne_of_names hj) ..).trans hj,
      fun _ _ => .refl _, le_rfl⟩
  exact hinsert.trans (grows_modify (.refl _))

end

/-! ## The calls -/

variable (cwd)

/-- A new object at the place that a path names: `mkdir`, `mknod`, `symlink`, `mkfifo`. -/
def makeObject (p : Path) (x : Inode) : Except Errno Fs :=
  match fs.slot cwd p with
  | .error e => .error e
  | .ok l =>
    if fs.names l ≠ none then .error .exist
    else if h : fs.Free l then .ok (fs.create l x h)
    else .error .notdir

/-- `bind` of a local socket: what is in the way is an error of its own. -/
def bindSocket (p : Path) (x : Inode) : Except Errno Fs :=
  match fs.makeObject cwd p x with
  | .error .exist => .error .addrinuse
  | r => r

/-- Where `open` with `O_CREAT` creates: a symlink at the end is followed also if it dangles. Each
symlink starts a lookup of its own. -/
def place : Nat → Loc → Path → Except Errno Loc
  | 0, _, _ => .error .loop
  | n + 1, cwd, p =>
    match fs.slot cwd p with
    | .error e => .error e
    | .ok l =>
      match fs.body? l with
      | some (.link t) => place n l.dropLast t
      | _ => .ok l

/-- `creat`, with the inode that was opened. -/
def creat (p : Path) (x : Inode) : Except Errno (Fs × Nat) :=
  match fs.place (maxLinks + 1) cwd p with
  | .error e => .error e
  | .ok l =>
    match fs.names l with
    | some i =>
      match (fs.inodes i).body with
      | .dir => .error .isdir
      | .sock => .error .nxio
      | _ => .ok (fs.setContent i [], i)
    | none => if h : fs.Free l then .ok (fs.create l x h, fs.next) else .error .notdir

/-- `link` -/
def link (p q : Path) : Except Errno Fs :=
  match fs.slot cwd p with
  | .error e => .error e
  | .ok l₀ =>
    match fs.names l₀ with
    | none => .error .noent
    | some i =>
      match fs.slot cwd q with
      | .error e => .error e
      | .ok l =>
        if fs.names l ≠ none then .error .exist
        else if (fs.inodes i).body = .dir then .error .perm
        else if h : fs.Free l ∧ i < fs.next then .ok (fs.addName l i h.1 h.2)
        else .error .notdir

/-- `remove`; `empty` says of a directory whether it can be removed. -/
def remove (p : Path) (empty : Bool) : Except Errno Fs :=
  match fs.slot cwd p with
  | .error e => .error e
  | .ok l =>
    match fs.body? l with
    | none => .error .noent
    | some b =>
      if h : l ≠ [] ∧ (b = .dir → empty) then .ok (fs.erase l h.1) else .error .notempty

/-- `lchown` by a user who may. -/
def lchown (p : Path) (uid gid : Nat) : Except Errno Fs :=
  match fs.slot cwd p with
  | .error e => .error e
  | .ok l =>
    match fs.names l with
    | none => .error .noent
    | some i => .ok (fs.setOwner i uid gid)

/-- `chmod` -/
def chmod (p : Path) (perm : Nat) : Except Errno Fs :=
  match fs.resolve cwd p with
  | .error e => .error e
  | .ok l =>
    match fs.names l with
    | none => .error .noent
    | some i => .ok (fs.setPerm i perm)

section
variable {fs} {cwd} {l l₀ : Loc} {p q : Path} {x : Inode} {i : Nat}

theorem makeObject_error {e : Errno} (h : fs.slot cwd p = .error e) :
    fs.makeObject cwd p x = .error e := by
  unfold makeObject
  rw [h]

theorem makeObject_exist (h : fs.slot cwd p = .ok l) (hl : fs.names l ≠ none) :
    fs.makeObject cwd p x = .error .exist := by
  unfold makeObject
  rw [h]
  exact if_pos hl

theorem makeObject_free (h : fs.slot cwd p = .ok l) (hl : fs.Free l) :
    fs.makeObject cwd p x = .ok (fs.create l x hl) := by
  unfold makeObject
  rw [h]
  exact (if_neg (not_not.2 hl.empty)).trans (dif_pos hl)

theorem creat_error {e : Errno} (h : fs.slot cwd p = .error e) : fs.creat cwd p x = .error e := by
  unfold creat place
  rw [h]

theorem creat_free (h : fs.slot cwd p = .ok l) (hl : fs.Free l) :
    fs.creat cwd p x = .ok (fs.create l x hl, fs.next) := by
  have hplace : fs.place (maxLinks + 1) cwd p = .ok l := by
    unfold place
    simp only [h, fs.body?_eq_none.2 hl.empty]
  unfold creat
  simp only [hplace, hl.empty]
  exact dif_pos hl

theorem link_error {e : Errno} (h₀ : fs.slot cwd p = .ok l₀) (hi : fs.names l₀ = some i)
    (h : fs.slot cwd q = .error e) : fs.link cwd p q = .error e := by
  unfold link
  simp only [h₀, hi, h]

theorem link_free (h₀ : fs.slot cwd p = .ok l₀) (hi : fs.names l₀ = some i)
    (hdir : (fs.inodes i).body ≠ .dir) (h : fs.slot cwd q = .ok l) (hl : fs.Free l) :
    fs.link cwd p q = .ok (fs.addName l i hl (fs.lt_next l₀ i hi)) := by
  unfold link
  simp only [h₀, hi, h]
  rw [if_neg (not_not.2 hl.empty), if_neg hdir, dif_pos ⟨hl, fs.lt_next l₀ i hi⟩]

theorem remove_error {e : Errno} {b : Bool} (h : fs.slot cwd p = .error e) :
    fs.remove cwd p b = .error e := by
  unfold remove
  rw [h]

theorem remove_free {b : Bool} (h : fs.slot cwd p = .ok l) (hl : fs.names l = none) :
    fs.remove cwd p b = .error .noent := by
  unfold remove
  simp only [h, fs.body?_eq_none.2 hl]

end

end Fs

end Posix
