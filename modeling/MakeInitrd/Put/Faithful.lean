import MakeInitrd.Put.Rounds
import MakeInitrd.Put.Canonical

/-!
# Installed copies

After the last round `main` sets owner and permissions of every file. Names of one inode stand for
one source file, so the order does not matter, and in the end each inode has the attributes of the
files that lead to it (`permissions_spec`).

A run that starts with an empty destination and succeeds leaves a copy of every file of the tree:
the type, the permission bits, the content and the target are those of the source. Device nodes are
the exception, which `install_file` makes with `st_dev`, the number of the device that the source is
on, in place of `st_rdev` (`install_faithful_iff`).
-/

namespace MakeInitrd.Put

open Posix CMem Loop List

/-! ## The permissions at the end -/

section
section
variable {cfg : Setup} {fs₀ fs fs' : Fs} {s : State} {jobs : Nat} {p q : Item} {l : Loc} {i j : Nat}
  {installed order : List Item}

/-- What `apply_permissions` does to the inode of a file. -/
def Setup.own (cfg : Setup) (p : Item) (x : Inode) : Inode :=
  { x with
    uid := if cfg.privileged then p.stat.uid else x.uid
    gid := if cfg.privileged then p.stat.gid else x.gid
    perm := if p.stat.type = .lnk then x.perm else p.stat.perm }

theorem Setup.own_own (h : q.stat = p.stat) (x : Inode) :
    cfg.own q (cfg.own p x) = cfg.own p x := by
  unfold Setup.own
  rw [h]
  cases cfg.privileged <;> by_cases hlnk : p.stat.type = .lnk <;> simp [hlnk]

/-- The inode at the place of a file. -/
def Setup.inode? (cfg : Setup) (fs : Fs) (p : Item) : Option Nat :=
  fs.inodeAt cfg.cwd (cfg.path p)

theorem body?_congr (hnames : fs'.names = fs.names)
    (hbody : ∀ j, (fs'.inodes j).body = (fs.inodes j).body) : fs'.body? = fs.body? := by
  funext l
  unfold Fs.body?
  rw [hnames]
  simp only [hbody]

/-- The file is at a place of the destination, where only a symlink stands for a symlink. -/
def Setup.Stands (cfg : Setup) (fs : Fs) (p : Item) (i : Nat) : Prop :=
  ∃ l, cfg.slot fs p = .ok l ∧ fs.names l = some i ∧
    (p.stat.type ≠ .lnk → ∀ t, (fs.inodes i).body ≠ .link t)

theorem Setup.Stands.congr (h : cfg.Stands fs p i) (hnames : fs'.names = fs.names)
    (hbody : ∀ j, (fs'.inodes j).body = (fs.inodes j).body) : cfg.Stands fs' p i := by
  obtain ⟨l, hslot, hi, hlink⟩ := h
  refine ⟨l, (Fs.slot_congr (body?_congr hnames hbody)).trans hslot, hnames ▸ hi, ?_⟩
  rw [hbody]
  exact hlink

theorem Setup.Stands.inode? (h : cfg.Stands fs p i) : cfg.inode? fs p = some i := by
  obtain ⟨l, hslot, hi, -⟩ := h
  exact Fs.inodeAt_eq_some hslot hi

/-- The attributes of one file are set at its inode only. -/
theorem applyPermissions_spec (hp : p ∈ installed) (h : cfg.Stands fs p i) :
    ∃ fs', cfg.applyPermissions installed fs p = some fs' ∧ fs'.names = fs.names ∧
      ∀ j, fs'.inodes j = if j = i then cfg.own p (fs.inodes j) else fs.inodes j := by
  obtain ⟨l, hslot, hi, hlink⟩ := h
  have hlchown :
      fs.lchown cfg.cwd (cfg.path p) p.stat.uid p.stat.gid =
        .ok (fs.setOwner i p.stat.uid p.stat.gid) := by
    unfold Fs.lchown
    rw [show fs.slot cfg.cwd (cfg.path p) = .ok l from hslot]
    simp only [hi]
  -- the file system after `lchown`
  obtain ⟨fs₁, hfs₁⟩ :
      ∃ fs₁, fs₁ = if cfg.privileged then fs.setOwner i p.stat.uid p.stat.gid else fs :=
    ⟨_, rfl⟩
  have hnames : fs₁.names = fs.names := by
    rw [hfs₁]
    split <;> rfl
  have hinodes (j : Nat) : fs₁.inodes j =
      if j = i then { cfg.own p (fs.inodes j) with perm := (fs.inodes j).perm }
        else fs.inodes j := by
    rw [hfs₁]
    cases hpriv : cfg.privileged
    · simp only [Setup.own, hpriv, Bool.false_eq_true, if_false, ite_self]
    · simp only [Setup.own, hpriv, if_true, Fs.setOwner, Fs.inodes_modify]
  have hbody (j : Nat) : (fs₁.inodes j).body = (fs.inodes j).body := by
    rw [hinodes]
    split <;> rfl
  unfold Setup.applyPermissions
  rw [if_neg (not_not.2 hp), hlchown]
  show ∃ fs', (if p.stat.type = .lnk then some (if cfg.privileged then _ else _)
    else ((if cfg.privileged then _ else _ : Fs).chmod cfg.cwd (cfg.path p) p.stat.perm).toOption) =
      some fs' ∧ _
  rw [← hfs₁]
  by_cases hlnk : p.stat.type = .lnk
  · refine ⟨fs₁, if_pos hlnk, hnames, fun j => ?_⟩
    rw [hinodes]
    simp only [Setup.own, hlnk, if_true]
  · have hslot₁ : fs₁.slot cfg.cwd (cfg.path p) = .ok l :=
      (Fs.slot_congr (body?_congr hnames hbody)).trans hslot
    have hobj : fs₁.body? l = some (fs₁.inodes i).body := by
      unfold Fs.body?
      rw [hnames, hi, Option.map_some]
    have hresolve := Fs.resolve_of_slot hslot₁ hobj fun t ht => hlink hlnk t
      ((hbody i).symm.trans ht)
    have hchmod : fs₁.chmod cfg.cwd (cfg.path p) p.stat.perm = .ok (fs₁.setPerm i p.stat.perm) := by
      unfold Fs.chmod
      rw [hresolve]
      simp only [hnames, hi]
    refine ⟨fs₁.setPerm i p.stat.perm, ?_, hnames, fun j => ?_⟩
    · rw [if_neg hlnk, hchmod]
      rfl
    · unfold Fs.setPerm
      rw [Fs.inodes_modify, hinodes]
      split
      · simp only [Setup.own, hlnk, if_false]
      · rfl

/-- What the files of a list make of the inode `j`. -/
def Setup.ownAll (cfg : Setup) (fs : Fs) (order : List Item) (j : Nat) (x : Inode) : Inode :=
  order.foldl (fun x p => if cfg.inode? fs p = some j then cfg.own p x else x) x

theorem ownAll_cons (x : Inode) : cfg.ownAll fs (q :: order) j x =
    cfg.ownAll fs order j (if cfg.inode? fs q = some j then cfg.own q x else x) := rfl

/-- The attributes of all files, in any order -/
theorem applyAll_spec (hinst : ∀ p ∈ order, p ∈ installed)
    (hstands : ∀ p ∈ order, ∃ i, cfg.Stands fs p i) :
    ∃ fs', order.foldlM (cfg.applyPermissions installed) fs = some fs' ∧ fs'.names = fs.names ∧
      ∀ j, fs'.inodes j = cfg.ownAll fs order j (fs.inodes j) := by
  induction order generalizing fs with
  | nil => exact ⟨fs, rfl, rfl, fun _ => rfl⟩
  | cons p order ih =>
    obtain ⟨i, hi⟩ := hstands p (.head _)
    obtain ⟨fs₁, happly, hnames₁, hinodes₁⟩ := applyPermissions_spec (hinst p (.head _)) hi
    have hbody (j : Nat) : (fs₁.inodes j).body = (fs.inodes j).body := by
      rw [hinodes₁]
      split <;> rfl
    have hinode (q : Item) : cfg.inode? fs₁ q = cfg.inode? fs q := by
      unfold Setup.inode? Fs.inodeAt
      rw [Fs.slot_congr (body?_congr hnames₁ hbody), hnames₁]
    obtain ⟨fs', hfold, hnames', hinodes'⟩ := ih (fun q hq => hinst q (.tail _ hq)) fun q hq => by
      obtain ⟨i', hi'⟩ := hstands q (.tail _ hq)
      exact ⟨i', hi'.congr hnames₁ hbody⟩
    refine ⟨fs', ?_, hnames'.trans hnames₁, fun j => ?_⟩
    · rw [foldlM_cons, happly]
      exact hfold
    · simp only [hinodes', Setup.ownAll, hinode, foldl_cons, hi.inode?, hinodes₁,
        Option.some.injEq, eq_comm]

theorem ownAll_of_ne (h : ∀ q ∈ order, cfg.inode? fs q ≠ some j) (x : Inode) :
    cfg.ownAll fs order j x = x := by
  induction order with
  | nil => rfl
  | cons q order ih =>
    rw [ownAll_cons, if_neg (h q (.head _))]
    exact ih fun r hr => h r (.tail _ hr)

theorem body_ownAll (x : Inode) : (cfg.ownAll fs order j x).body = x.body := by
  induction order generalizing x with
  | nil => rfl
  | cons q order ih =>
    rw [ownAll_cons, ih]
    split <;> rfl

theorem ownAll_own (hagree : ∀ q ∈ order, cfg.inode? fs q = some j → q.stat = p.stat) (x : Inode) :
    cfg.ownAll fs order j (cfg.own p x) = cfg.own p x := by
  induction order with
  | nil => rfl
  | cons q order ih =>
    have htail := ih fun r hr => hagree r (.tail _ hr)
    rw [ownAll_cons]
    split
    · next hq => rw [Setup.own_own (hagree q (.head _) hq), htail]
    · exact htail

/-- Files that lead to one inode agree about it, so it does not matter which comes last. -/
theorem ownAll_eq (hp : p ∈ order) (hj : cfg.inode? fs p = some j)
    (hagree : ∀ q ∈ order, cfg.inode? fs q = some j → q.stat = p.stat) (x : Inode) :
    cfg.ownAll fs order j x = cfg.own p x := by
  induction order with
  | nil => cases hp
  | cons q order ih =>
    have htail (r : Item) (hr : r ∈ order) := hagree r (.tail _ hr)
    rw [ownAll_cons]
    by_cases hq : cfg.inode? fs q = some j
    · have hown : cfg.own q x = cfg.own p x := by
        unfold Setup.own
        rw [hagree q (.head _) hq]
      rw [if_pos hq, hown]
      exact ownAll_own htail x
    · rw [if_neg hq]
      refine ih ?_ htail
      rcases mem_cons.1 hp with rfl | hp
      · exact absurd hj hq
      · exact hp

/-! ## After the last round -/

theorem Over.mem_installed (h : Over cfg fs₀ jobs s) (hcount : cfg.files.length ≤ s.count)
    (hp : p ∈ cfg.files) :
    p ∈ s.installed := by
  have htidy := h.inRound.tidy
  have hsub : s.installed.Subperm cfg.files := subperm_of_subset htidy.nodup htidy.mem
  exact (hsub.perm_of_length_le (htidy.count ▸ hcount)).mem_iff.2 hp

theorem mem_permissionOrder : p ∈ cfg.permissionOrder ↔ p ∈ cfg.files := by
  rw [← (classified cfg).perm.mem_iff]
  unfold Setup.permissionOrder
  simp only [mem_append, mem_reverse]
  tauto

theorem PlacedAt.stands (h : PlacedAt cfg fs₀ fs p l i)
    (hold : ∀ i < fs₀.next, fs.inodes i = fs₀.inodes i) :
    cfg.Stands fs p i := by
  refine ⟨l, h.slot, h.names, fun hlnk t ht => ?_⟩
  rcases h.made with ⟨-, -, hmade⟩ | ⟨hi, -, hdir⟩
  · have hbody := congrArg Object.body hmade
    rw [show (fs.inodes i).object.body = .link t from ht] at hbody
    unfold Setup.copyOf at hbody
    cases htype : p.stat.type <;> rw [htype] at hbody
    case lnk => exact hlnk htype
    all_goals cases hbody
  · obtain ⟨j, hj, hbody⟩ := Option.map_eq_some_iff.1 hdir
    cases hi.symm.trans hj
    rw [hold i (fs₀.lt_next l i hi), hbody] at ht
    cases ht

/-- A run that is not stopped by a missing file succeeds, and every inode of a file gets its
attributes; all else stays. -/
theorem permissions_spec (h : Over cfg fs₀ jobs s) (hcount : cfg.files.length ≤ s.count) :
    ∃ fs', cfg.permissionOrder.foldlM (cfg.applyPermissions s.installed) s.fs = some fs' ∧
      fs'.names = s.fs.names ∧
      ∀ j, fs'.inodes j = cfg.ownAll s.fs cfg.permissionOrder j (s.fs.inodes j) := by
  refine applyAll_spec (fun p hp => h.mem_installed hcount (mem_permissionOrder.1 hp))
    fun p hp => ?_
  obtain ⟨l, i, hplaced⟩ := h.inRound.laid.placed p
    (h.mem_installed hcount (mem_permissionOrder.1 hp))
  exact ⟨i, hplaced.stands h.inRound.laid.old⟩

/-- Two files that lead to what was there before do not lead to the same directory. -/
def Setup.OnePlace (cfg : Setup) (fs₀ fs : Fs) : Prop :=
  ∀ p q l l' i, p ∈ cfg.files → q ∈ cfg.files → cfg.slot fs p = .ok l → cfg.slot fs q = .ok l' →
    fs₀.names l = some i → fs₀.names l' = some i → l = l'

theorem PlacedAt.inode? (h : PlacedAt cfg fs₀ fs p l i) : cfg.inode? fs p = some i :=
  Fs.inodeAt_eq_some h.slot h.names

section
variable (h : Over cfg fs₀ jobs s) (hclear : Clear cfg fs₀ s.fs) (hone : cfg.OnePlace fs₀ s.fs)
  (hcount : cfg.files.length ≤ s.count)
include h hclear hone hcount

theorem Over.agree (hp : p ∈ cfg.files) (hq : q ∈ cfg.files) (hpl : PlacedAt cfg fs₀ s.fs p l i)
    (hqi : cfg.inode? s.fs q = some i) : q.stat = p.stat := by
  have hlaid := h.inRound.laid
  have hpi := h.mem_installed hcount hp
  have hqinst := h.mem_installed hcount hq
  obtain ⟨l', i', hql⟩ := hlaid.placed q hqinst
  cases hql.inode?.symm.trans hqi
  rcases hpl.made with ⟨-, hnew, -⟩ | ⟨hold, -⟩
  · exact hlaid.shared p q l l' i hpi hqinst hpl hql hnew
  · rcases hql.made with ⟨-, hnew, -⟩ | ⟨hold', -⟩
    · exact absurd (fs₀.lt_next l i hold) (not_lt.2 hnew)
    · cases hone p q l l' i hp hq hpl.slot hql.slot hold hold'
      cases hclear.apart p q l hp hq hpl.slot hql.slot
      rfl

theorem Over.final :
    ∃ fs', endRound cfg s = { s with fs := fs', phase := .done } ∧ fs'.names = s.fs.names ∧
      (∀ j, (fs'.inodes j).body = (s.fs.inodes j).body) ∧
      (∀ p ∈ cfg.files, ∃ l i, PlacedAt cfg fs₀ s.fs p l i ∧ fs'.inodes i =
        cfg.own p (s.fs.inodes i)) ∧
      ∀ j, (∀ p ∈ cfg.files, cfg.inode? s.fs p ≠ some j) → fs'.inodes j = s.fs.inodes j := by
  obtain ⟨fs', hfold, hnames, hinodes⟩ := permissions_spec h hcount
  refine ⟨fs', ?_, hnames, fun j => hinodes j ▸ body_ownAll _, fun p hp => ?_, fun j hj => ?_⟩
  · rcases endRound_cases h.count with ⟨hlt, -⟩ | ⟨-, ⟨hnone, -⟩ | ⟨fs, hfs, heq⟩⟩
    · exact absurd hcount (not_le.2 hlt)
    · cases hfold.symm.trans hnone
    · cases hfold.symm.trans hfs
      exact heq
  · obtain ⟨l, i, hplaced⟩ := h.inRound.laid.placed p (h.mem_installed hcount hp)
    refine ⟨l, i, hplaced, (hinodes i).trans ?_⟩
    exact ownAll_eq (mem_permissionOrder.2 hp) hplaced.inode?
      (fun q hq hqi => h.agree hclear hone hcount hp (mem_permissionOrder.1 hq) hplaced hqi) _
  · rw [hinodes]
    exact ownAll_of_ne (fun q hq => hj q (mem_permissionOrder.1 hq)) _

end

end

end

/-! ## What the tree tells -/

section

/-- A physical walk returns with each path what `lstat` says about it. -/
def Env.WalkTells (env : Env) : Prop :=
  ∀ dir, ∀ e ∈ env.walk dir, env.lstat e.1 = some e.2

/-- If the `stat` of an item has been filled in, it is that of its source. -/
def Env.Filled (env : Env) (f : File) : Prop :=
  ∀ st, f.stat = some st → env.lstat f.src = some st

/-- What the tree tells about a file. -/
structure Env.Told (env : Env) (f : File) : Prop where
  dst : f.dst = stripPrefix env f.src
  stat : ∃ st, f.stat = some st ∧ env.lstat f.src = some st ∧
    (st.type = .lnk → f.symlink = env.readlink f.src)

section
variable {env : Env} {args : List Path} {w w' : Work} {f f' : File}

theorem Env.Filled.statOf {st : Stat} (h : env.Filled f) (hst : env.statOf f = some st) :
    env.lstat f.src = some st := by
  unfold Env.statOf at hst
  split at hst
  · next st' hst' =>
    cases hst
    exact h st hst'
  · exact hst

theorem enqueuePath_told (hadded : w.isPathAdded f.src) (hfilled : env.Filled f)
    (hdst : f.dst = stripPrefix env f.src) (h : w.enqueuePath env f = some (f', w')) :
    env.Told f' := by
  simp only [Work.enqueuePath, hadded, Bool.not_true, Bool.false_eq_true, if_false,
    Option.bind_eq_bind, Option.bind_eq_some_iff] at h
  obtain ⟨st, hst, h⟩ := h
  have hlstat := hfilled.statOf hst
  cases htype : st.type with
  | dir =>
    simp only [htype, Option.some.injEq, Prod.mk.injEq] at h
    obtain ⟨rfl, -⟩ := h
    exact ⟨hdst, st, rfl, hlstat, fun hlnk => by cases htype.symm.trans hlnk⟩
  | lnk =>
    simp only [htype, Option.bind_eq_some_iff, Option.some.injEq, Prod.mk.injEq] at h
    obtain ⟨w₁, -, rfl, -⟩ := h
    exact ⟨hdst, st, rfl, hlstat, fun _ => rfl⟩
  | reg =>
    simp only [htype, Option.bind_eq_some_iff, Option.some.injEq, Prod.mk.injEq] at h
    obtain ⟨ds, -, rfl, -⟩ := h
    exact ⟨hdst, st, rfl, hlstat, fun hlnk => by cases htype.symm.trans hlnk⟩
  | blk | chr | fifo | sock =>
    simp only [htype, Option.some.injEq, Prod.mk.injEq] at h
    obtain ⟨rfl, -⟩ := h
    exact ⟨hdst, st, rfl, hlstat, fun hlnk => by cases htype.symm.trans hlnk⟩

structure Telling (env : Env) (w : Work) : Prop extends Consistent env w where
  filled : w.All env.Filled
  told : ∀ f ∈ w.tree, env.Told f

theorem Telling.round (h : Telling env w) (hwalk : env.WalkTells) (hround : w.Round env w') :
    Telling env w' := by
  have hcons := h.toConsistent.round hround
  cases hround with
  | restart hrest _ =>
    exact ⟨hcons, fun f hf => h.filled f (queue_restart hrest ▸ hf), h.told⟩
  | drop hrest _ => exact ⟨hcons, h.filled.drop hrest, h.told⟩
  | @take q f next w₁ hrest _ _ hpath =>
    have hq : env.Filled (env.withDst q) := h.filled q (mem_rest_queue hrest)
    have hold : Work.All { w with tree := env.withDst q :: w.tree } env.Filled := h.filled
    refine ⟨hcons, (hold.enqueuePath (fun _ _ _ => nofun) (fun _ _ _ _ e he _ st hst => ?_)
      (fun _ _ _ _ _ _ => ⟨fun g hg _ => hg, fun _ => nofun⟩) hpath).take, fun g hg => ?_⟩
    · cases hst
      exact hwalk _ e he
    · rcases mem_cons.1 hg with rfl | hg
      · refine enqueuePath_told ?_ hq rfl hpath
        rw [Work.isPathAdded_iff, Work.inTree_iff]
        exact .inl (.head _)
      · exact h.told g hg

/-- The files of the tree are as `lstat` describes them. -/
theorem collects_told (hwalk : env.WalkTells) {tree : List File} {nr : Nat}
    (h : Collects env args (.finished tree nr)) :
    (∀ f ∈ tree, env.Told f) ∧ (tree.map File.src).Nodup := by
  unfold Collects at h
  cases hw : enqueueArguments env args with
  | none =>
    rw [hw] at h
    cases h
  | some w =>
    rw [hw] at h
    have hstarted := started_enqueueArguments hw
    have htelling : Telling env w := by
      refine ⟨hstarted.inv.toConsistent, fun f hf st hst => ?_, ?_⟩
      · cases (hstarted.plain f hf).stat.symm.trans hst
      · rw [hstarted.tree]
        exact nofun
    refine h.rule (I := Telling env) (Q := fun r => ∀ tree nr, r = .finished tree nr →
      (∀ f ∈ tree, env.Told f) ∧ (tree.map File.src).Nodup) htelling
      (fun w₁ w₂ h₁ hagain => h₁.round hwalk (mainRound_again hagain)) ?_ tree nr rfl
    rintro w₁ r h₁ hdone tree nr rfl
    rcases mainRound_done hdone with hexit | ⟨hfin, -⟩
    · cases hexit
    · cases hfin
      exact ⟨h₁.told, h₁.tree_nodup⟩

end

/-! ## The files of the installation -/

/-- The order of `tree_walk`. -/
def treeWalk (tree : List File) : List File :=
  tree.insertionSort fun f g => strcmpLe (text f.src) (text g.src)

structure User where
  uid : Nat
  gid : Nat
  /-- `lchown` is allowed -/
  privileged : Bool

namespace World

variable (world : World)

/-- A file of the tree as the installation reads it. -/
def item (f : File) : Option Item :=
  f.stat.map fun st => ⟨f.src, f.dst, f.symlink, st, (world.fs.inodes st.ino).body.content.length⟩

/-- The installation of a tree; `dev` is the device of the destination. -/
def setup (user : User) (dev : Nat) (tree : List File) : Setup where
  cwd := world.cwd
  destdir := world.destdir
  removePrefix := world.removePrefix
  force := world.force
  files := (treeWalk tree).filterMap world.item
  uid := user.uid
  gid := user.gid
  dev := dev
  privileged := user.privileged

end World

section
variable {world : World} {user : User} {dev : Nat} {args : List Path} {tree : List File} {nr : Nat}
  {f : File} {p : Item}

theorem World.item_eq_some (h : world.item f = some p) : p.src = f.src ∧ p.dst = f.dst ∧
    f.stat = some p.stat ∧ p.symlink = f.symlink ∧
    p.size = (world.fs.inodes p.stat.ino).body.content.length := by
  obtain ⟨st, hst, rfl⟩ := Option.map_eq_some_iff.1 h
  exact ⟨rfl, rfl, hst, rfl, rfl⟩

theorem World.mem_files :
    p ∈ (world.setup user dev tree).files ↔ ∃ f ∈ tree, world.item f = some p := by
  show p ∈ (treeWalk tree).filterMap world.item ↔ _
  rw [mem_filterMap]
  unfold treeWalk
  simp only [mem_insertionSort]

theorem World.map_src_filterMap (world : World) (l : List File) :
    ((l.filterMap world.item).map Item.src).Sublist (l.map File.src) := by
  induction l with
  | nil => exact .slnil
  | cons f l ih =>
    cases hitem : world.item f with
    | none =>
      rw [filterMap_cons_none hitem]
      exact ih.cons _
    | some p =>
      rw [filterMap_cons_some hitem, map_cons, map_cons, (item_eq_some hitem).1]
      exact ih.cons_cons _

theorem World.lstat_of_env {src : Path} {st : Stat} (h : world.env.lstat src = some st) :
    world.fs.lstat world.cwd src = .ok st := by
  change (world.fs.lstat world.cwd src).toOption = some st at h
  cases hlstat : world.fs.lstat world.cwd src with
  | error e =>
    rw [hlstat] at h
    cases h
  | ok st' =>
    rw [hlstat] at h
    cases h
    rfl

theorem World.ready (hwalk : world.env.WalkTells)
    (h : Collects world.env args (.finished tree nr)) :
    Ready (world.setup user dev tree) world.fs := by
  obtain ⟨htold, hnodup⟩ := collects_told hwalk h
  refine ⟨?_, ?_, fun p hp => ?_⟩
  · show world.fs.body? world.cwd ≠ none
    rw [world.cwd_dir]
    exact nofun
  · have hperm : (treeWalk tree).Perm tree := perm_insertionSort _ tree
    have hwalked := (hperm.map File.src).nodup_iff.2 hnodup
    exact (hwalked.sublist (world.map_src_filterMap _)).of_map
  · obtain ⟨f, hf, hitem⟩ := World.mem_files.1 hp
    obtain ⟨hsrc, hdst, hstat, hsymlink, hsize⟩ := World.item_eq_some hitem
    obtain ⟨-, st, hst, hlstat, hlnk⟩ := htold f hf
    cases hstat.symm.trans hst
    refine ⟨?_, fun htype => ?_, fun _ => hsize⟩
    · rw [hsrc]
      exact World.lstat_of_env hlstat
    · rw [hsymlink, hlnk htype, hsrc]
      rfl

end

end

/-! ## Copies -/

section
variable (cfg : Setup) (fs : Fs)

def Setup.place? (p : Item) : Option Loc :=
  (cfg.slot fs p).toOption

/-- No two files lead to the same place. -/
def Setup.Apart : Prop :=
  ∀ p ∈ cfg.files, ∀ q ∈ cfg.files, ∀ l ∈ cfg.place? fs p, l ∈ cfg.place? fs q → p = q

/-- No file leads to a place outside of the destination, and only a directory to the destination
itself. -/
def Setup.Confined : Prop :=
  ∀ p ∈ cfg.files, ∀ l ∈ cfg.place? fs p, cfg.destdir <+: l ∧ (l = cfg.destdir → p.stat.type = .dir)

instance : Decidable (cfg.Apart fs) :=
  inferInstanceAs (Decidable (∀ p ∈ cfg.files, ∀ q ∈ cfg.files, ∀ l ∈ cfg.place? fs p, _))

instance : Decidable (cfg.Confined fs) :=
  inferInstanceAs (Decidable (∀ p ∈ cfg.files, ∀ l ∈ cfg.place? fs p, _))

end

/-- `t'` is the path `t` without the removed prefix; the prefix itself becomes the root. -/
def Stripped (removed : Option Path) (t t' : Path) : Prop :=
  (∃ pre rest, removed = some pre ∧ pre ≠ [[]] ∧ t = pre ++ rest ∧ t' = if rest = [] then [[], []]
    else [] :: rest) ∨
  (∀ pre, removed = some pre → pre ≠ [[]] → ¬pre <+: t) ∧ t' = t

namespace World

variable (world : World)

/-- The destination is an empty directory. -/
structure EmptyDest : Prop where
  dir : world.fs.body? world.destdir = some .dir
  empty (l : Loc) : world.destdir <+: l → l ≠ world.destdir → world.fs.names l = none

/-- Symlinks have the permission bits that Linux gives to all of them. -/
def LinkModes : Prop :=
  ∀ i t, (world.fs.inodes i).body = .link t → (world.fs.inodes i).perm = 0o777

/-- `install_path` -/
def destPath (f : File) : Path :=
  concat (Loc.path world.destdir) f.dst

/-- The object `b'` is a copy of `b`. -/
def BodyCopied (b b' : Body) : Prop :=
  match b with
  | .link t => ∃ t', b' = .link t' ∧ Stripped world.removePrefix t t'
  | b => b' = b

/-- The file has a copy in the destination. -/
def Copied (fs : Fs) (f : File) : Prop :=
  ∃ i i', world.fs.inodeAt world.cwd f.src = some i ∧
    fs.inodeAt world.cwd (world.destPath f) = some i' ∧
    (fs.inodes i').perm = (world.fs.inodes i).perm ∧
    world.BodyCopied (world.fs.inodes i).body (fs.inodes i').body

/-- Every file of the tree has a copy, and hard links of one another have the same content. -/
structure Faithful (tree : List File) (fs : Fs) : Prop where
  copied : ∀ f ∈ tree, world.Copied fs f
  hardlinks : ∀ f ∈ tree, ∀ g ∈ tree, ∀ i c, world.fs.inodeAt world.cwd f.src = some i →
    world.fs.inodeAt world.cwd g.src = some i → (world.fs.inodes i).body = .reg c →
    ∃ j k, fs.inodeAt world.cwd (world.destPath f) = some j ∧
      fs.inodeAt world.cwd (world.destPath g) = some k ∧
      (fs.inodes j).body.content = (fs.inodes k).body.content

/-- The number of each device node of the tree is that of the device it is on. -/
def DevicesOnThemselves (tree : List File) : Prop :=
  ∀ f ∈ tree, ∀ st, world.fs.lstat world.cwd f.src = .ok st → st.type = .blk ∨ st.type = .chr →
    st.rdev = st.dev

end World

section
variable {world : World} {user : User} {dev jobs : Nat} {args : List Path}
    {tree : List File} {nr : Nat}
  {s : State} {p : Item} {f : File} {fs fs₀ : Fs} {l : Loc} {i : Nat} {cfg : Setup}

theorem target_stripped (cfg : Setup) (t : Path) : Stripped cfg.removePrefix t (cfg.target t) := by
  unfold Setup.target
  cases hpre : cfg.removePrefix with
  | none => exact .inr ⟨nofun, rfl⟩
  | some pre =>
    by_cases h : pre ≠ [[]] ∧ pre <+: t
    · obtain ⟨hne, rest, rfl⟩ := h
      refine .inl ⟨pre, rest, rfl, hne, rfl, ?_⟩
      simp only [hne, ne_eq, not_false_eq_true, prefix_append, and_self, if_true,
        length_append, drop_left]
      cases rest <;> simp
    · refine .inr ⟨?_, if_neg h⟩
      rintro pre' ⟨⟩ hne hbegin
      exact h ⟨hne, hbegin⟩

theorem mem_place? : l ∈ cfg.place? fs p ↔ cfg.slot fs p = .ok l := by
  unfold Setup.place?
  cases cfg.slot fs p with
  | error e => exact ⟨nofun, nofun⟩
  | ok l' => simp [Except.toOption]

theorem World.clear (hempty : world.EmptyDest) (happart : (world.setup user dev tree).Apart fs)
    (hconf : (world.setup user dev tree).Confined fs) :
    Clear (world.setup user dev tree) world.fs fs where
  apart p q l hp hq hpl hql := happart p hp q hq l (mem_place?.2 hpl) (mem_place?.2 hql)
  untouched p l hp hpl hold := by
    obtain ⟨hbelow, hself⟩ := hconf p hp l (mem_place?.2 hpl)
    by_cases hl : l = world.destdir
    · exact ⟨hself hl, hl ▸ hempty.dir⟩
    · exact absurd (hempty.empty l hbelow hl) hold

theorem World.onePlace (hempty : world.EmptyDest)
    (hconf : (world.setup user dev tree).Confined fs) :
    (world.setup user dev tree).OnePlace world.fs fs := by
  have hdest {p : Item} {l : Loc} {i : Nat} (hp : p ∈ (world.setup user dev tree).files)
      (hpl : (world.setup user dev tree).slot fs p = .ok l) (hi : world.fs.names l = some i) :
      l = world.destdir := by
    by_contra hne
    cases (hempty.empty l (hconf p hp l (mem_place?.2 hpl)).1 hne).symm.trans hi
  intro p q l l' i hp hq hpl hql hi hi'
  exact (hdest hp hpl hi).trans (hdest hq hql hi').symm

/-- The copy is of the same kind and content, but for the number of a device. -/
theorem bodyCopied_iff (hsource : Sourced (world.setup user dev tree) world.fs p)
    (hplaced : PlacedAt (world.setup user dev tree) world.fs fs p l i)
    (hold : ∀ i < world.fs.next, fs.inodes i = world.fs.inodes i) :
    world.BodyCopied (world.fs.inodes p.stat.ino).body (fs.inodes i).body ↔
      (p.stat.type = .blk ∨ p.stat.type = .chr → p.stat.rdev = p.stat.dev) := by
  obtain ⟨-, -, -, hstat⟩ := hsource.inode
  have htype : (world.fs.inodes p.stat.ino).body.type = p.stat.type := congrArg Stat.type hstat.symm
  have hrdev : (world.fs.inodes p.stat.ino).body.rdev = p.stat.rdev := congrArg Stat.rdev hstat.symm
  rcases hplaced.made with ⟨-, -, hmade⟩ | ⟨hi, hdir, hbody⟩
  · have hcopy : (fs.inodes i).body = ((world.setup user dev tree).copyOf world.fs p).body :=
      congrArg Object.body hmade
    rw [hcopy]
    unfold Setup.copyOf World.BodyCopied
    cases hb : (world.fs.inodes p.stat.ino).body with
    | link t =>
      rw [hb] at htype
      obtain ⟨t', ht', hbody⟩ := hsource.target htype.symm
      cases hb.symm.trans hbody
      simp only [← htype, Body.type, ht', Option.getD_some, reduceCtorEq, or_self,
        false_implies, iff_true]
      exact ⟨_, rfl, target_stripped (world.setup user dev tree) t⟩
    | blk rdev | chr rdev =>
      rw [hb] at htype hrdev
      simp only [← htype, ← hrdev, Body.type, Body.rdev, Body.blk.injEq,
        Body.chr.injEq, reduceCtorEq, true_or, or_true, true_implies]
      exact eq_comm
    | dir | reg | fifo | sock =>
      rw [hb] at htype
      simp only [← htype, Body.type, Body.content, reduceCtorEq, or_self, false_implies]
  · -- the directory was there before
    obtain ⟨j, hj, hjbody⟩ := Option.map_eq_some_iff.1 hbody
    cases hi.symm.trans hj
    rw [hold i (world.fs.lt_next l i hi), hjbody, hdir]
    have hb : (world.fs.inodes p.stat.ino).body = .dir := by
      rw [hdir] at htype
      revert htype
      cases (world.fs.inodes p.stat.ino).body <;> intro htype <;> first | rfl | cases htype
    rw [hb]
    simp only [World.BodyCopied, reduceCtorEq, or_self, false_implies]

theorem perm_own (hmodes : world.LinkModes)
    (hsource : Sourced (world.setup user dev tree) world.fs p)
    (hplaced : PlacedAt (world.setup user dev tree) world.fs fs p l i) :
    ((world.setup user dev tree).own p (fs.inodes i)).perm = (world.fs.inodes p.stat.ino).perm := by
  obtain ⟨-, -, -, hstat⟩ := hsource.inode
  by_cases hlnk : p.stat.type = .lnk
  · obtain ⟨t, -, hbody⟩ := hsource.target hlnk
    have hcopy : (fs.inodes i).perm = 0o777 := by
      rcases hplaced.made with ⟨-, -, hmade⟩ | ⟨-, hdir, -⟩
      · rw [show (fs.inodes i).perm = _ from congrArg Object.perm hmade]
        simp only [Setup.copyOf, hlnk]
      · cases hlnk.symm.trans hdir
    rw [hmodes _ t hbody]
    exact (if_pos hlnk).trans hcopy
  · exact (if_neg hlnk).trans (congrArg Stat.perm hstat)

/-- A file is copied exactly if the number of a device is its own. -/
theorem copied_iff (hmodes : world.LinkModes) {fs' : Fs}
    (hsource : Sourced (world.setup user dev tree) world.fs p) (hitem : world.item f = some p)
    (hplaced : PlacedAt (world.setup user dev tree) world.fs fs p l i)
    (hold : ∀ i < world.fs.next, fs.inodes i = world.fs.inodes i)
    (hnames : fs'.names = fs.names) (hbody : ∀ j, (fs'.inodes j).body = (fs.inodes j).body)
    (hinode : fs'.inodes i = (world.setup user dev tree).own p (fs.inodes i)) :
    world.Copied fs' f ↔ (p.stat.type = .blk ∨ p.stat.type = .chr → p.stat.rdev = p.stat.dev) := by
  obtain ⟨hsrc, hdst, -⟩ := World.item_eq_some hitem
  have hat : world.fs.inodeAt world.cwd f.src = some p.stat.ino := by
    obtain ⟨l₀, hslot, hino, -⟩ := hsource.inode
    exact Fs.inodeAt_eq_some (hsrc ▸ hslot) hino
  have hat' : fs'.inodeAt world.cwd (world.destPath f) = some i := by
    refine Fs.inodeAt_eq_some (l := l) ?_ (hnames ▸ hplaced.names)
    rw [Fs.slot_congr (body?_congr hnames hbody)]
    unfold World.destPath
    rw [← hdst]
    exact hplaced.slot
  unfold World.Copied
  rw [hat, hat', ← bodyCopied_iff hsource hplaced hold]
  constructor
  · rintro ⟨_, _, ⟨⟩, ⟨⟩, -, hcopied⟩
    rwa [hbody] at hcopied
  · intro hcopied
    refine ⟨_, _, rfl, rfl, ?_, by rwa [hbody]⟩
    rw [hinode]
    exact perm_own hmodes hsource hplaced

/-- Copies of hard links of one another have one content, since they have that of the source. -/
theorem World.faithful_iff : world.Faithful tree fs ↔ ∀ f ∈ tree, world.Copied fs f := by
  refine ⟨fun h => h.copied, fun h => ⟨h, fun f hf g hg i c hfi hgi hreg => ?_⟩⟩
  obtain ⟨i₁, j, hi₁, hj, -, hfj⟩ := h f hf
  obtain ⟨i₂, k, hi₂, hk, -, hgk⟩ := h g hg
  cases hfi.symm.trans hi₁
  cases hgi.symm.trans hi₂
  rw [hreg] at hfj hgk
  exact ⟨j, k, hj, hk, congrArg Body.content (hfj.trans hgk.symm)⟩

end

/-- A run of `initrd-put` that starts with an empty destination and ends successfully, in which at
every step no two files of the tree lead to the same place and none leads out of the destination,
leaves faithful copies if and only if every device node of the tree is on the device that it stands
for. -/
theorem install_faithful_iff (world : World) (user : User) (dev jobs : Nat) (args : List Path)
    (tree : List File) (nr : Nat) (s : State)
    (hwalk : world.env.WalkTells) (hmodes : world.LinkModes) (hempty : world.EmptyDest)
    (htree : Collects world.env args (.finished tree nr))
    (hrun : (installation (world.setup user dev tree) world.fs jobs).ReachBy
      (fun s _ => (world.setup user dev tree).Apart s.fs ∧
        (world.setup user dev tree).Confined s.fs) s)
    (hdone : s.phase = .done) :
    world.Faithful tree s.fs ↔ world.DevicesOnThemselves tree := by
  have hready : Ready (world.setup user dev tree) world.fs := World.ready hwalk htree
  obtain ⟨htold, -⟩ := collects_told hwalk htree
  have hstory := story_of_reach
    (C := fun s _ => (world.setup user dev tree).Apart s.fs ∧
      (world.setup user dev tree).Confined s.fs)
    (I := fun _ => True) hready (fun s _ hs => World.clear hempty hs.1 hs.2) trivial
    (fun _ _ _ _ _ _ _ => trivial) hrun
  cases hstory with
  | inRound hround => exact absurd hround.running (hdone ▸ id)
  | exit => cases hdone
  | @afterAll s₀ _ hover hcond =>
    have hcount : (world.setup user dev tree).files.length ≤ s₀.count := by
      rcases endRound_cases hover.count with ⟨-, heq⟩ | ⟨hle, -⟩
      · rw [heq] at hdone
        cases hdone
      · exact hle
    obtain ⟨fs', heq, hnames, hbody, hfinal, -⟩ := hover.final (World.clear hempty hcond.1 hcond.2)
      (World.onePlace hempty hcond.2) hcount
    rw [heq, World.faithful_iff]
    refine forall₂_congr fun f hf => ?_
    obtain ⟨-, st, hst, hlstat, -⟩ := htold f hf
    obtain ⟨p, hitem⟩ : ∃ p, world.item f = some p := by
      unfold World.item
      rw [hst]
      exact ⟨_, rfl⟩
    have hp : p ∈ (world.setup user dev tree).files := World.mem_files.2 ⟨f, hf, hitem⟩
    have hstat : f.stat = some p.stat := (World.item_eq_some hitem).2.2.1
    obtain ⟨l, i, hplaced, hinode⟩ := hfinal p hp
    rw [copied_iff hmodes (hready.sourced p hp) hitem hplaced hover.inRound.laid.old
      hnames hbody hinode]
    cases hst.symm.trans hstat
    rw [World.lstat_of_env hlstat]
    constructor
    · rintro h st ⟨⟩
      exact h
    · exact fun h => h p.stat rfl

/-! ## A regular file and a device node -/

def deviceBody (rdev : Nat) : Nat → Body
  | 2 => .chr rdev
  | 3 => .reg [104, 105]
  | _ => .dir

/-- The file `a`, the character device `c` of number `rdev` on the device 8 and the empty directory
`o`. -/
def deviceWorld (rdev : Nat) : World where
  fs := Fs.ofList [([], 1), ([[99]], 2), ([[97]], 3), ([[111]], 4)]
    (fun i => sampleInode (deviceBody rdev i)) 5 rfl (by
      intro e he hne
      simp only [mem_cons, not_mem_nil, or_false] at he
      rcases he with rfl | rfl | rfl | rfl
      · exact absurd rfl hne
      all_goals rfl) (by decide)
  cwd := []
  cwd_dir := rfl
  destdir := [[111]]
  removePrefix := none
  excluded := fun _ => false
  force := false
  deps := fun _ => some []
  walk := fun _ => []

/-- What `initrd-put` collects for the two. -/
def deviceTree (rdev : Nat) : List File :=
  [⟨[[], [97]], [[], [97]], none, some ⟨.reg, 0o755, 0, 0, 8, 3, 0, 1⟩, true⟩,
    ⟨[[], [99]], [[], [99]], none, some ⟨.chr, 0o755, 0, 0, 8, 2, rdev, 1⟩, true⟩]

def root : User :=
  ⟨0, 0, true⟩

/-- The schedule of one thread: the file is copied by `copy_file_range`, the node is made, and a
second round has nothing to do. -/
def deviceRun : List (Nat × Choice) :=
  [(0, .go), (0, .go), (0, .go), (0, .go), (0, .go), (0, .allocated), (0, .answer (.transferred 2)),
    (0, .go), (0, .go), (0, .go), (0, .go), (0, .go), (0, .go), (0, .go), (0, .go), (0, .go)]

theorem deviceWorld_collects (rdev : Nat) :
    Collects (deviceWorld rdev).env [[[], [97]], [[], [99]]] (.finished (deviceTree rdev) 2) := by
  refine collects_of_run (n := 4) ?_
  rfl

theorem deviceWorld_empty (rdev : Nat) : (deviceWorld rdev).EmptyDest := by
  refine ⟨rfl, fun l hl hne => ?_⟩
  change [[111]] <+: l at hl
  by_contra hnames
  obtain ⟨i, hi⟩ := Option.ne_none_iff_exists'.1 hnames
  have hmem := Fs.mem_of_find hi
  simp only [mem_cons, not_mem_nil, or_false, Prod.mk.injEq] at hmem
  rcases hmem with ⟨rfl, -⟩ | ⟨rfl, -⟩ | ⟨rfl, -⟩ | ⟨rfl, -⟩
  · exact absurd hl (by decide)
  · exact absurd hl (by decide)
  · exact absurd hl (by decide)
  · exact hne rfl

theorem deviceWorld_linkModes (rdev : Nat) : (deviceWorld rdev).LinkModes := by
  intro i t h
  change deviceBody rdev i = .link t at h
  unfold deviceBody at h
  split at h <;> cases h

/-- The installation of the two. -/
abbrev deviceSetup (rdev : Nat) : Setup :=
  (deviceWorld rdev).setup root 9 (deviceTree rdev)

/-- What the state of `deviceRun` is checked for. -/
def deviceEnd (s : State) : Bool :=
  s.phase.isDone && (s.fs.inodeAt [] [[], [111], [99]]).map (fun i => (s.fs.inodes i).body) =
    some (.chr 8)

theorem deviceEnd_of_run (rdev : Nat)
    (h : ((installation (deviceSetup rdev) (deviceWorld rdev).fs 1).exec
      (fun s _ => (deviceSetup rdev).Apart s.fs ∧ (deviceSetup rdev).Confined s.fs)
      (start (deviceSetup rdev) (deviceWorld rdev).fs) deviceRun).any deviceEnd = true) :
    ∃ s, (installation (deviceSetup rdev) (deviceWorld rdev).fs 1).ReachBy
        (fun s _ => (deviceSetup rdev).Apart s.fs ∧ (deviceSetup rdev).Confined s.fs) s ∧
      s.phase = .done ∧
      (s.fs.inodeAt [] [[], [111], [99]]).map (fun i => (s.fs.inodes i).body) = some (.chr 8) := by
  obtain ⟨s, hreach, hend⟩ := Lts.reachBy_of_exec
    (show (installation _ _ 1).init _ from rfl) _ _ _ h
  unfold deviceEnd at hend
  rw [Bool.and_eq_true, decide_eq_true_eq] at hend
  exact ⟨s, hreach.mono fun s _ => of_decide_eq_true, Phase.isDone_iff.1 hend.1, hend.2⟩

theorem install_faithful_iff_device :
    ∃ s, (installation (deviceSetup 8) (deviceWorld 8).fs 1).ReachBy
        (fun s _ => (deviceSetup 8).Apart s.fs ∧ (deviceSetup 8).Confined s.fs) s ∧
      s.phase = .done ∧ (deviceWorld 8).Faithful (deviceTree 8) s.fs := by
  obtain ⟨s, hreach, hdone, -⟩ := deviceEnd_of_run 8 (by decide +kernel)
  refine ⟨s, hreach, hdone, (install_faithful_iff (deviceWorld 8) root 9 1 _ (deviceTree 8) 2 s
    (fun _ => nofun) (deviceWorld_linkModes 8) (deviceWorld_empty 8) (deviceWorld_collects 8) hreach
    hdone).2 ?_⟩
  intro f hf st hst htype
  have hlstat : ∀ f ∈ deviceTree 8, ((deviceWorld 8).fs.lstat (deviceWorld 8).cwd f.src).toOption =
      f.stat := by decide
  have hnumber : ∀ f ∈ deviceTree 8, ∀ st ∈ f.stat, st.type = .blk ∨ st.type = .chr → st.rdev =
      st.dev := by decide
  refine hnumber f hf st ?_ htype
  rw [← hlstat f hf, hst]
  rfl

/-- A node of another number than that of the device it is on is not copied. -/
theorem not_install_faithful :
    Collects (deviceWorld 5).env [[[], [97]], [[], [99]]] (.finished (deviceTree 5) 2) ∧
    (deviceWorld 5).EmptyDest ∧
    ∃ s, (installation (deviceSetup 5) (deviceWorld 5).fs 1).ReachBy
        (fun s _ => (deviceSetup 5).Apart s.fs ∧ (deviceSetup 5).Confined s.fs) s ∧
      s.phase = .done ∧ ¬(deviceWorld 5).Faithful (deviceTree 5) s.fs := by
  refine ⟨deviceWorld_collects 5, deviceWorld_empty 5, ?_⟩
  obtain ⟨s, hreach, hdone, hnode⟩ := deviceEnd_of_run 5 (by decide +kernel)
  refine ⟨s, hreach, hdone, fun h => ?_⟩
  obtain ⟨i, i', hi, hi', -, hcopied⟩ := h.copied _ (.tail _ (.head _))
  have hsource : (deviceWorld 5).fs.inodeAt (deviceWorld 5).cwd [[], [99]] = some 2 := by decide
  cases hi.symm.trans hsource
  obtain ⟨j, hj, hbody⟩ := Option.map_eq_some_iff.1 hnode
  cases hi'.symm.trans hj
  rw [hbody] at hcopied
  cases hcopied

end MakeInitrd.Put
