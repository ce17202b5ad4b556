import MakeInitrd.Lib.SearchTree
import MakeInitrd.Put.Install

/-!
# `classify_file` with its arrays and its search tree

The three collections of `classify_file` are arrays that grow, and the first name of every inode
with several links is found by `tsearch`, which is given a key on the stack that is replaced by a
copy on the heap once it has been inserted. A datum that is still on the stack is how
`classify_file` knows that its key is new.
-/

namespace MakeInitrd.Put

open Posix SearchTree List

/-! ## Groups of names -/

/-- A regular file with several links. -/
def Item.hasLinks (p : Item) : Bool :=
  p.stat.type = .reg && 1 < p.stat.nlink

/-- The collections, with the first names of the inodes that have several links. -/
structure Grouped (files : List Item) (c : Collector) : Prop extends Classified files c where
  dirs_eq : c.dirs = files.filter fun p => p.stat.type = .dir
  root_eq : c.nonDirs.filter Item.hasLinks = c.hardlinksRoot
  distinct : c.hardlinksRoot.Pairwise fun a b => sameInode a b = false
  grouped (p : Item) : p ∈ files → p.hasLinks → ∃ q ∈ c.hardlinksRoot, sameInode p q

section

variable {files : List Item} {c : Collector} {p q r : Item}

theorem sameInode_iff : sameInode p q ↔ p.stat.dev = q.stat.dev ∧ p.stat.ino = q.stat.ino := by
  rw [sameInode, Bool.and_eq_true, decide_eq_true_eq, decide_eq_true_eq]

theorem sameInode_symm : sameInode p q = sameInode q p := by
  rw [Bool.eq_iff_iff, sameInode_iff, sameInode_iff, eq_comm, @eq_comm _ p.stat.ino]

theorem sameInode_trans (h : sameInode p q) (h' : sameInode q r) : sameInode p r := by
  rw [sameInode_iff] at *
  exact ⟨h.1.trans h'.1, h.2.trans h'.2⟩

theorem filter_concat_of_neg {f : Item → Bool} {l : List Item} (hp : f p = false) :
    (l ++ [p]).filter f = l.filter f := by
  rw [filter_append, filter_cons_of_neg (by rw [hp]; exact Bool.false_ne_true),
    filter_nil, append_nil]

theorem filter_concat_of_pos {f : Item → Bool} {l : List Item} (hp : f p = true) :
    (l ++ [p]).filter f = l.filter f ++ [p] := by
  rw [filter_append, filter_cons_of_pos hp, filter_nil]

theorem Grouped.grouped_concat (h : Grouped files c) (hp : p.hasLinks = false) {root : List Item}
    (hroot : ∀ q ∈ c.hardlinksRoot, q ∈ root) (q : Item) (hq : q ∈ files ++ [p])
    (hlinks : q.hasLinks) :
    ∃ r ∈ root, sameInode q r := by
  rcases mem_append.1 hq with hq | hq
  · obtain ⟨r, hr, hsame⟩ := h.grouped q hq hlinks
    exact ⟨r, hroot r hr, hsame⟩
  · rw [mem_singleton.1 hq, hp] at hlinks
    cases hlinks

/-- `classify_file` keeps the names of an inode together. -/
theorem grouped_classifyFile (h : Grouped files c) : Grouped (files ++ [p]) (classifyFile c p) := by
  have hclass := classified_classifyFile (p := p) h.toClassified
  unfold classifyFile at hclass ⊢
  split at hclass
  · next hdir =>
    have hlinks : p.hasLinks = false := by rw [Item.hasLinks, hdir]; rfl
    rw [if_pos hdir]
    exact ⟨hclass,
      by rw [filter_concat_of_pos (decide_eq_true hdir), h.dirs_eq], h.root_eq, h.distinct,
      h.grouped_concat hlinks fun _ hq => hq⟩
  next hdir =>
  have hdirs : c.dirs = (files ++ [p]).filter fun p => p.stat.type = .dir := by
    rw [filter_concat_of_neg (decide_eq_false hdir), h.dirs_eq]
  rw [if_neg hdir]
  split at hclass
  · next hreg =>
    have hlinks : p.hasLinks := by
      rw [Item.hasLinks, decide_eq_true hreg.1, decide_eq_true hreg.2]
      rfl
    rw [if_pos hreg]
    cases hfind : c.hardlinksRoot.find? (sameInode p) with
    | some q =>
      rw [hfind] at hclass
      refine ⟨hclass, hdirs, h.root_eq, h.distinct, fun r hr hlinks => ?_⟩
      rcases mem_append.1 hr with hr | hr
      · exact h.grouped r hr hlinks
      · rw [mem_singleton.1 hr]
        exact ⟨q, mem_of_find?_eq_some hfind, find?_some hfind⟩
    | none =>
      rw [hfind] at hclass
      refine ⟨hclass, hdirs, ?_, ?_, fun r hr hlinks => ?_⟩
      · show (c.nonDirs ++ [p]).filter _ = c.hardlinksRoot ++ [p]
        rw [filter_concat_of_pos hlinks, h.root_eq]
      · refine pairwise_append.2 ⟨h.distinct, pairwise_singleton _ _, fun a ha b hb => ?_⟩
        rw [mem_singleton.1 hb, sameInode_symm]
        exact Bool.eq_false_iff.2 (find?_eq_none.1 hfind a ha)
      · rcases mem_append.1 hr with hr | hr
        · obtain ⟨q, hq, hsame⟩ := h.grouped r hr hlinks
          exact ⟨q, mem_append_left _ hq, hsame⟩
        · rw [mem_singleton.1 hr]
          exact ⟨p, mem_append_right _ mem_cons_self, sameInode_iff.2 ⟨rfl, rfl⟩⟩
  · next hreg =>
    have hlinks : p.hasLinks = false := by
      rw [Item.hasLinks, Bool.and_eq_false_iff, decide_eq_false_iff_not, decide_eq_false_iff_not]
      exact Decidable.not_and_iff_or_not.1 hreg
    rw [if_neg hreg]
    exact ⟨hclass, hdirs, (filter_concat_of_neg hlinks).trans h.root_eq, h.distinct,
      h.grouped_concat hlinks fun _ hq => hq⟩

theorem Grouped.unique (h : Grouped files c) (hq : q ∈ c.hardlinksRoot) (hr : r ∈ c.hardlinksRoot)
    (hpq : sameInode p q) (hpr : sameInode p r) : q = r := by
  by_contra hne
  have hsame : sameInode q r := sameInode_trans (sameInode_symm ▸ hpq) hpr
  have : Std.Symm fun a b => sameInode a b = false := ⟨fun a b hab => sameInode_symm.trans hab⟩
  exact Bool.false_ne_true ((h.distinct.forall hq hr hne).symm.trans hsame)

theorem Grouped.one (h : Grouped files c) (hp : p ∈ files) (hlinks : p.hasLinks) :
    (c.nonDirs.filter fun q => q.hasLinks && sameInode p q).length = 1 := by
  obtain ⟨q, hq, hsame⟩ := h.grouped p hp hlinks
  have hnodup : c.hardlinksRoot.Nodup := by
    refine h.distinct.imp fun {a b} hab heq => ?_
    rw [heq, Bool.eq_false_iff] at hab
    exact hab (sameInode_iff.2 ⟨rfl, rfl⟩)
  have hfilter :
      (c.nonDirs.filter fun q => q.hasLinks && sameInode p q) = c.hardlinksRoot.filter (· = q) := by
    rw [← h.root_eq, filter_filter]
    refine filter_congr fun r hr => ?_
    rw [Bool.eq_iff_iff, Bool.and_eq_true, Bool.and_eq_true, decide_eq_true_eq, and_comm]
    refine and_congr_left fun hr' => ⟨fun hpr => ?_, fun heq => heq ▸ hsame⟩
    refine h.unique ?_ hq hpr hsame
    rw [← h.root_eq]
    exact mem_filter.2 ⟨hr, hr'⟩
  rw [hfilter, filter_eq, length_replicate, count_eq_one_of_mem hnodup hq]

end

/-! ## The arrays and the search tree -/

/-- An array that grows: there is room for `cap` elements. -/
structure Grown (α : Type) where
  items : List α
  cap : Nat
  room : items.length ≤ cap

/-- One more element; an array that is full gets twice the room, and an empty one room for `first`.
-/
def Grown.push {α : Type} (a : Grown α) (first : Nat) (hfirst : 0 < first) (x : α) : Grown α where
  items := a.items ++ [x]
  cap := if a.items.length = a.cap then (if a.cap ≠ 0 then a.cap * 2 else first) else a.cap
  room := by
    have := a.room
    rw [List.length_append, List.length_singleton]
    split
    · split <;> omega
    · omega

/-- `struct hardlink_entry`; `onStack` tells the key of `classify_file` from the copies of earlier
keys. -/
structure HardlinkEntry where
  dev : Nat
  ino : Nat
  file : Item
  onStack : Bool

/-- `compare_hardlink_entry` -/
def compareHardlinkEntry (a b : HardlinkEntry) : Ordering :=
  if a.dev < b.dev then .lt
  else if b.dev < a.dev then .gt
  else if a.ino < b.ino then .lt
  else if b.ino < a.ino then .gt
  else .eq

/-- The entries are equal for the search tree. -/
def HardlinkEntry.equal (a b : HardlinkEntry) : Bool :=
  compareHardlinkEntry a b = .eq

theorem HardlinkEntry.equal_iff {a b : HardlinkEntry} :
    a.equal b ↔ a.dev = b.dev ∧ a.ino = b.ino := by
  unfold HardlinkEntry.equal compareHardlinkEntry
  split_ifs <;> simp <;> omega

namespace Collect

/-- `collector` and `hardlinks_root`; a hard link is kept with its `hardlink_target`. -/
structure State (lib : Library HardlinkEntry HardlinkEntry.equal) where
  dirs : Grown Item
  nonDirs : Grown Item
  hardlinks : Grown (Item × Item)
  hardlinksRoot : lib.Root

variable {lib : Library HardlinkEntry HardlinkEntry.equal}

/-- `classify_file`; `none` if the program exits. -/
def classifyFile (c : State lib) (p : Item) : Option (State lib) :=
  if p.stat.type = .dir then some { c with dirs := c.dirs.push 64 (by decide) p }
  else if p.stat.type = .reg ∧ 1 < p.stat.nlink then
    let key : HardlinkEntry := ⟨p.stat.dev, p.stat.ino, p, true⟩
    let (root, val) := lib.tsearch key c.hardlinksRoot
    match (lib.data root)[val]? with
    | none => none
    | some orig =>
      if !orig.onStack then
        some { c with
          hardlinksRoot := root
          hardlinks := c.hardlinks.push 64 (by decide) (p, orig.file) }
      else
        some { c with
          hardlinksRoot := lib.assign root val { key with onStack := false }
          nonDirs := c.nonDirs.push 256 (by decide) p }
  else some { c with nonDirs := c.nonDirs.push 256 (by decide) p }

/-- `walk_action` with `classify_file` as its closure. -/
def walkAction (c : Option (State lib)) (node : Item × Visit) : Option (State lib) :=
  match node.2 with
  | .preorder | .endorder => c
  | .postorder | .leaf => c.bind fun c => classifyFile c node.1

/-- `memset(&collector, 0, sizeof(collector))` -/
def empty (lib : Library HardlinkEntry HardlinkEntry.equal) : State lib where
  dirs := ⟨[], 0, Nat.le_refl 0⟩
  nonDirs := ⟨[], 0, Nat.le_refl 0⟩
  hardlinks := ⟨[], 0, Nat.le_refl 0⟩
  hardlinksRoot := lib.empty

/-- `tree_walk(classify_file)` -/
def treeWalk (lib : Library HardlinkEntry HardlinkEntry.equal) (tree : BinaryTree Item) :
    Option (State lib) :=
  (twalk tree).foldl walkAction (some (empty lib))

/-! ## What the arrays hold -/

/-- The arrays hold the collections, and the search tree the first names. -/
structure Holds (c : Collector) (k : State lib) : Prop where
  dirs : k.dirs.items = c.dirs
  nonDirs : k.nonDirs.items = c.nonDirs
  hardlinks : k.hardlinks.items = c.hardlinks
  root : ((lib.data k.hardlinksRoot).map HardlinkEntry.file).Perm c.hardlinksRoot
  /-- every datum is a copy on the heap -/
  heap : ∀ e ∈ lib.data k.hardlinksRoot, e.onStack = false
  key : ∀ e ∈ lib.data k.hardlinksRoot, e.dev = e.file.stat.dev ∧ e.ino = e.file.stat.ino

variable {files : List Item} {c : Collector} {k : State lib} {p : Item}

theorem Holds.equal_iff (h : Holds c k) {e : HardlinkEntry} (he : e ∈ lib.data k.hardlinksRoot) :
    HardlinkEntry.equal ⟨p.stat.dev, p.stat.ino, p, true⟩ e ↔ sameInode p e.file := by
  rw [HardlinkEntry.equal_iff, sameInode_iff, (h.key e he).1, (h.key e he).2]

theorem Holds.found (h : Holds c k) (hc : Grouped files c) {q : Item}
    (hfind : c.hardlinksRoot.find? (sameInode p) = some q) :
    ∃ root val orig, lib.tsearch ⟨p.stat.dev, p.stat.ino, p, true⟩ k.hardlinksRoot = (root, val) ∧
      lib.data root = lib.data k.hardlinksRoot ∧ (lib.data root)[val]? = some orig ∧
      orig.onStack = false ∧ orig.file = q := by
  have hq := mem_of_find?_eq_some hfind
  obtain ⟨e, he, rfl⟩ := mem_map.1 (h.root.mem_iff.2 hq)
  obtain ⟨hdata, orig, horig, heq⟩ := lib.found _ _ e he ((h.equal_iff he).2 (find?_some hfind))
  have hmem := mem_of_getElem? horig
  refine ⟨_, _, orig, rfl, hdata, hdata ▸ horig, h.heap orig hmem, ?_⟩
  exact hc.unique (h.root.mem_iff.1 (mem_map_of_mem hmem)) hq ((h.equal_iff hmem).1 heq)
    (find?_some hfind)

/-- A key that is not in the tree is inserted and found on the stack. -/
theorem Holds.inserted (h : Holds c k) (hfind : c.hardlinksRoot.find? (sameInode p) = none) :
    ∃ root val orig, lib.tsearch ⟨p.stat.dev, p.stat.ino, p, true⟩ k.hardlinksRoot = (root, val) ∧
      (lib.data root)[val]? = some orig ∧ orig.onStack = true ∧
      (lib.data (lib.assign root val ⟨p.stat.dev, p.stat.ino, p, false⟩)).Perm
        (lib.data k.hardlinksRoot ++ [⟨p.stat.dev, p.stat.ino, p, false⟩]) := by
  have hnew :
      ∀ e ∈ lib.data k.hardlinksRoot,
        HardlinkEntry.equal ⟨p.stat.dev, p.stat.ino, p, true⟩ e = false := by
    intro e he
    rw [Bool.eq_false_iff, ne_eq, h.equal_iff he]
    exact find?_eq_none.1 hfind _ (h.root.mem_iff.1 (mem_map_of_mem he))
  obtain ⟨a, b, hold, hdata, hval⟩ := lib.inserted _ _ hnew
  obtain ⟨root, val, hsearch⟩ : ∃ root val,
      lib.tsearch ⟨p.stat.dev, p.stat.ino, p, true⟩ k.hardlinksRoot = (root, val) := ⟨_, _, rfl⟩
  rw [hsearch] at hdata hval
  dsimp only at hdata hval
  have hslot : (lib.data root)[val]? = some ⟨p.stat.dev, p.stat.ino, p, true⟩ := by
    rw [hdata, hval]
    simp
  have hassign := lib.data_assign root val ⟨p.stat.dev, p.stat.ino, p, false⟩ _ hslot
    (HardlinkEntry.equal_iff.2 ⟨rfl, rfl⟩)
  refine ⟨root, val, _, hsearch, hslot, rfl, ?_⟩
  rw [hassign, hdata, hval, hold, set_append_right _ _ (Nat.le_refl _), Nat.sub_self,
    set_cons_zero, append_assoc]
  exact (perm_append_singleton _ _).symm.append_left a

/-- The arrays and the tree go along with the lists. -/
theorem Holds.classifyFile (h : Holds c k) (hc : Grouped files c) :
    ∃ k', classifyFile k p = some k' ∧ Holds (Put.classifyFile c p) k' := by
  unfold Collect.classifyFile Put.classifyFile
  by_cases hdir : p.stat.type = .dir
  · rw [if_pos hdir, if_pos hdir]
    exact ⟨_, rfl, congrArg (· ++ [p]) h.dirs, h.nonDirs, h.hardlinks, h.root, h.heap, h.key⟩
  rw [if_neg hdir, if_neg hdir]
  by_cases hreg : p.stat.type = .reg ∧ 1 < p.stat.nlink
  · rw [if_pos hreg, if_pos hreg]
    cases hfind : c.hardlinksRoot.find? (sameInode p) with
    | some q =>
      obtain ⟨root, val, orig, hsearch, hdata, horig, hheap, rfl⟩ := h.found hc hfind
      simp only [hsearch, horig, hheap, Bool.not_false, if_true]
      refine ⟨_, rfl, h.dirs, h.nonDirs, congrArg (· ++ [(p, orig.file)]) h.hardlinks, ?_, ?_, ?_⟩
      · rw [hdata]
        exact h.root
      · rw [hdata]
        exact h.heap
      · rw [hdata]
        exact h.key
    | none =>
      obtain ⟨root, val, orig, hsearch, horig, hstack, hperm⟩ := h.inserted hfind
      simp only [hsearch, horig, hstack, Bool.not_true, Bool.false_eq_true, if_false]
      refine ⟨_, rfl, h.dirs, congrArg (· ++ [p]) h.nonDirs, h.hardlinks, ?_, ?_, ?_⟩
      · refine (hperm.map _).trans ?_
        rw [map_append]
        exact h.root.append_right [p]
      · intro e he
        rcases mem_append.1 (hperm.mem_iff.1 he) with he | he
        · exact h.heap e he
        · rw [mem_singleton.1 he]
      · intro e he
        rcases mem_append.1 (hperm.mem_iff.1 he) with he | he
        · exact h.key e he
        · rw [mem_singleton.1 he]
          exact ⟨rfl, rfl⟩
  · rw [if_neg hreg, if_neg hreg]
    exact ⟨_, rfl, h.dirs, congrArg (· ++ [p]) h.nonDirs, h.hardlinks, h.root, h.heap, h.key⟩

theorem Holds.foldl (h : Holds c k) (hc : Grouped files c) (fs : List Item) :
    ∃ c' k', fs.foldl (fun c p => c.bind fun c => Collect.classifyFile c p) (some k) = some k' ∧
      Grouped (files ++ fs) c' ∧ Holds c' k' := by
  induction fs generalizing files c k with
  | nil => exact ⟨c, k, rfl, by rwa [append_nil], h⟩
  | cons p fs ih =>
    obtain ⟨k₁, hk₁, h₁⟩ := h.classifyFile (p := p) hc
    obtain ⟨c', k', hfold, hc', h'⟩ := ih h₁ (grouped_classifyFile hc)
    refine ⟨c', k', ?_, append_cons files p fs ▸ hc', h'⟩
    rw [foldl_cons, Option.bind_some, hk₁]
    exact hfold

theorem foldl_walkAction (nodes : List (Item × Visit)) (c : Option (State lib)) :
    nodes.foldl walkAction c =
      (nodes.filterMap fun e => if e.2.isMiddle then some e.1 else none).foldl
        (fun c p => c.bind fun c => Collect.classifyFile c p) c := by
  induction nodes generalizing c with
  | nil => rfl
  | cons node nodes ih =>
    obtain ⟨p, which⟩ := node
    rw [foldl_cons, ih]
    cases which <;> rfl

/-- What the collections are for the files of a tree. -/
structure Partition (files : List Item) (k : State lib) : Prop where
  perm : (k.dirs.items ++ k.nonDirs.items ++ k.hardlinks.items.map Prod.fst).Perm files
  dirs : k.dirs.items = files.filter fun p => p.stat.type = .dir
  hardlinks (p target : Item) : (p, target) ∈ k.hardlinks.items → p.stat.type = .reg ∧
    target ∈ k.nonDirs.items ∧ target.stat.dev = p.stat.dev ∧ target.stat.ino = p.stat.ino
  first (p : Item) : p ∈ files → p.stat.type = .reg → 1 < p.stat.nlink →
    (k.nonDirs.items.filter fun q => q.stat.type = .reg ∧ 1 < q.stat.nlink ∧
      q.stat.dev = p.stat.dev ∧ q.stat.ino = p.stat.ino).length = 1

/-- After `classify_file` has been called for every file of the tree, each file is in one of the
three collections, the directories are together, every hard link has its target among the
non-directories, and of the names of an inode with several links one is there. -/
theorem treeWalk_partition (lib : Library HardlinkEntry HardlinkEntry.equal)
    (tree : BinaryTree Item) :
    ∃ k, treeWalk lib tree = some k ∧ Partition (inorder tree) k := by
  have hempty : Holds ⟨[], [], [], []⟩ (empty lib) := by
    have hdata : lib.data (empty lib).hardlinksRoot = [] := lib.data_empty
    refine ⟨rfl, rfl, rfl, ?_, ?_, ?_⟩ <;> rw [hdata]
    · exact .nil
    · exact nofun
    · exact nofun
  have hgrouped : Grouped [] ⟨[], [], [], []⟩ :=
    ⟨⟨.nil, nofun, nofun, nofun, nofun⟩, rfl, rfl, .nil, nofun⟩
  obtain ⟨c, k, hfold, hc, h⟩ := hempty.foldl hgrouped (inorder tree)
  rw [nil_append] at hc
  refine ⟨k, ?_, ?_⟩
  · rw [treeWalk, foldl_walkAction, filterMap_twalk, hfold]
  constructor
  case perm =>
    rw [h.dirs, h.nonDirs, h.hardlinks]
    exact hc.perm
  case dirs => rw [h.dirs, hc.dirs_eq]
  case hardlinks =>
    intro p target hmem
    rw [h.hardlinks] at hmem
    obtain ⟨hreg, hroot, hsame⟩ := hc.hardlinks p target hmem
    rw [h.nonDirs]
    exact ⟨hreg, (hc.root target hroot).1, sameInode_iff.1 (sameInode_symm ▸ hsame)⟩
  case first =>
    intro p hp hreg hlinks
    have hone := hc.one hp (by
      rw [Item.hasLinks, decide_eq_true hreg, decide_eq_true hlinks]
      rfl)
    rw [h.nonDirs]
    refine (congrArg length (filter_congr fun q _ => ?_)).trans hone
    rw [Bool.eq_iff_iff, decide_eq_true_eq, Bool.and_eq_true, sameInode_symm, sameInode_iff,
      Item.hasLinks, Bool.and_eq_true, decide_eq_true_eq, decide_eq_true_eq, and_assoc]

def sampleName (n : UInt8) : Item :=
  ⟨[[], [n]], [[], [n]], none, ⟨.reg, 0o644, 0, 0, 8, 3, 0, 2⟩, 0⟩

def twoNames : BinaryTree Item := .node (sampleName 98) (.node (sampleName 97) .nil .nil) .nil

/-- The second of two names is a hard link to the first. -/
theorem treeWalk_partition_twoNames :
    ∃ k, treeWalk (.ofList HardlinkEntry.equal) twoNames = some k ∧
      Partition (inorder twoNames) k ∧ k.nonDirs.items = [sampleName 97] ∧
      k.hardlinks.items = [(sampleName 98, sampleName 97)] := by
  obtain ⟨k, hk, hpart⟩ := treeWalk_partition (.ofList HardlinkEntry.equal) twoNames
  have hitems : ((treeWalk (.ofList HardlinkEntry.equal) twoNames).map fun k =>
      (k.nonDirs.items, k.hardlinks.items)) =
        some ([sampleName 97], [(sampleName 98, sampleName 97)]) := by
    decide
  rw [hk, Option.map_some, Option.some.injEq, Prod.mk.injEq] at hitems
  exact ⟨k, hk, hpart, hitems⟩

end Collect

end MakeInitrd.Put
