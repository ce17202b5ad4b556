import MakeInitrd.Lib.CommaList

/-!
# The disks kickstart may use

`ks_block_devices` lists the devices of sysfs without those that are mounted. For a partition, the
script finds the directory of its disk, but it still notes the number of the partition; so the disk
remains in the list unless it is mounted itself (`protects_iff`). `shell_var_is_yes`,
`shell_var_is_number` and the value of a number in `$(( ))` are those of a `Shell`.
-/

namespace MakeInitrd.Kickstart

open CMem Glob Words List

/-! ## Devices -/

structure Shell where
  isYes : Bytes → Bool
  isNumber : Bytes → Bool
  value : Bytes → Nat

/-- A device number, as the kernel prints it -/
structure DevNo where
  major : Bytes
  minor : Bytes
  major_digits : ∀ c ∈ major, 48 ≤ c ∧ c ≤ 57
  minor_digits : ∀ c ∈ minor, 48 ≤ c ∧ c ≤ 57

/-- `MAJ:MIN` -/
def DevNo.text (d : DevNo) : Bytes := d.major ++ 58 :: d.minor

/-- The directory of a device in sysfs, with the files that can be read there -/
structure Node where
  path : Bytes
  dev : DevNo
  partscan : Option Bytes
  loopPartscan : Option Bytes
  extRange : Option Bytes
  capability : Option Bytes
  path_ne : path ≠ []
  path_blank : ∀ c ∈ path, isBlank c = false

/-- `${dev##*/}` -/
def baseName (dev : Bytes) : Bytes := hashHash (parse (text "*/")) dev

def Node.name (n : Node) : Bytes := baseName n.path

/-- The paths with `/virtual/block/` -/
def isVirtual (dev : Bytes) : Bool := (hashHash (parse (text "*/virtual/block/*")) dev).isEmpty

/-- A whole disk with its partitions -/
structure Disk where
  node : Node
  partitions : List Node

def Disk.nodes (d : Disk) : List Node := d.node :: d.partitions

/-- `/sys/dev/block`: two devices have different names and different numbers. -/
structure Tree where
  disks : List Disk
  names_nodup : ((disks.flatMap Disk.nodes).map Node.name).Nodup
  devs_nodup : ((disks.flatMap Disk.nodes).map fun n => n.dev.text).Nodup

def Tree.nodes (t : Tree) : List Node := t.disks.flatMap Disk.nodes

/-- A line of `findmnt -lno MAJ:MIN`: the number of a mounted device, with the blanks that align it
-/
structure Mount where
  dev : DevNo
  before : Nat
  after : Nat

def Mount.line (m : Mount) : Bytes :=
  List.replicate m.before 32 ++ (m.dev.text ++ List.replicate m.after 32)

/-- `GENHD_FL_NO_PART_v5_17` and `GENHD_FL_NO_PART_v6_3` -/
def noPartFlags : Nat := 0x0200 ||| 0x0004

def ksValidBlockDevice (sh : Shell) (n : Node) : Bool :=
  match n.partscan with
  | some attr => sh.isYes attr
  | none =>
    n.loopPartscan.all sh.isYes &&
    match n.extRange with
    | none => false
    | some attr => sh.isNumber attr && n.capability.all fun attr => sh.isNumber attr &&
      sh.value attr &&& noPartFlags == 0

/-! ## `ks_block_devices` -/

/-- `/^ *0:.*/` -/
def isUnnamed (l : Bytes) : Bool := (text "0:").isPrefixOf (l.dropWhile (· = 32))

/-- `findmnt -lno MAJ:MIN |sed -e '/^ *0:.*/d' |sort -u` -/
def mountedNumbers (mounts : List Mount) : List Bytes :=
  words (unlines (sortUniq ((mounts.map Mount.line).filter fun l => !isUnnamed l)))

/-- `readlink-e "/sys/dev/block/$majmin"` -/
def Tree.readlink (t : Tree) (majmin : Bytes) : Option Bytes :=
  (t.nodes.find? fun n => n.dev.text = majmin).map Node.path

/-- The first loop, with its variables `dev` and `exclude` -/
def excludeStep (t : Tree) (st : Bytes × Bytes) (majmin : Bytes) : Bytes × Bytes :=
  match t.readlink majmin with
  | none => ([], st.2)
  | some dev =>
    (if isVirtual dev then dev else percent (parse (text "/*")) dev, st.2 ++ (majmin ++ [44]))

def exclude (t : Tree) (mounts : List Mount) : Bytes :=
  ((mountedNumbers mounts).foldl (excludeStep t) ([], [44])).2

/-- The bytes `sort -d` compares: blanks, digits and letters -/
def isDictionary (c : UInt8) : Bool :=
  c = 32 || c = 9 || (48 ≤ c && c ≤ 57) || (65 ≤ c && c ≤ 90) || (97 ≤ c && c ≤ 122)

/-- The order of `sort -d`: by these bytes, and by all bytes where they are the same -/
def dictionaryLe (a b : Bytes) : Bool :=
  if a.filter isDictionary = b.filter isDictionary then !b.lex a
  else !(b.filter isDictionary).lex (a.filter isDictionary)

def ksListDevices (t : Tree) : List Bytes :=
  (t.nodes.map Node.path).insertionSort fun a b => dictionaryLe a b

/-- The patterns `0:*|1:*|4:*` -/
def isReserved (majmin : Bytes) : Bool :=
  (text "0:").isPrefixOf majmin || (text "1:").isPrefixOf majmin || (text "4:").isPrefixOf majmin

/-- The second loop, for one path -/
def usable (sh : Shell) (t : Tree) (exclude dev : Bytes) : List Bytes :=
  match t.nodes.find? fun n => n.path = dev with
  | none => []
  | some n =>
    if CommaList.contains exclude n.dev.text then []
    else if isReserved n.dev.text then []
    else if ksValidBlockDevice sh n then [baseName dev]
    else []

/-- The words of the variable that `ks_block_devices` sets -/
def ksBlockDevices (sh : Shell) (t : Tree) (mounts : List Mount) : List Bytes :=
  (words (unlines (ksListDevices t))).flatMap (usable sh t (exclude t mounts))

/-! ## What is mounted -/

/-- The device is mounted. -/
def Mounted (mounts : List Mount) (n : Node) : Prop := ∃ m ∈ mounts, m.dev.text = n.dev.text

/-- No disk of the list is in use. -/
def Protects (sh : Shell) (t : Tree) (mounts : List Mount) : Prop :=
  ∀ d ∈ t.disks, isVirtual d.node.path = false →
    (Mounted mounts d.node ∨ ∃ p ∈ d.partitions, Mounted mounts p) →
    d.node.name ∉ ksBlockDevices sh t mounts

/-- A disk with a mounted partition is kept out of the list by something else. -/
def DisksInUseLeftOut (sh : Shell) (t : Tree) (mounts : List Mount) : Prop :=
  ∀ d ∈ t.disks, isVirtual d.node.path = false → (∃ p ∈ d.partitions, Mounted mounts p) →
    Mounted mounts d.node ∨ isReserved d.node.dev.text = true ∨ ksValidBlockDevice sh d.node = false

section

variable {d : DevNo}

theorem DevNo.mem_text {c : UInt8} (h : c ∈ d.text) : 48 ≤ c ∧ c ≤ 58 := by
  rcases mem_append.1 h with h | h
  · exact ⟨(d.major_digits c h).1, UInt8.le_trans (d.major_digits c h).2 (by decide)⟩
  · rcases mem_cons.1 h with rfl | h
    · decide
    · exact ⟨(d.minor_digits c h).1, UInt8.le_trans (d.minor_digits c h).2 (by decide)⟩

theorem DevNo.ne_of_mem_text {c e : UInt8} (h : c ∈ d.text) (he : ¬(48 ≤ e ∧ e ≤ 58)) : c ≠ e := by
  rintro rfl
  exact he (DevNo.mem_text h)

theorem DevNo.text_blank : ∀ c ∈ d.text, isBlank c = false := by
  intro c h
  have hne (e : UInt8) := DevNo.ne_of_mem_text (e := e) h
  simp [isBlank, hne 32 (by decide), hne 9 (by decide), hne 10 (by decide)]

theorem DevNo.text_plain : ∀ c ∈ d.text, isPlain c = true := by
  intro c h
  have hne (e : UInt8) := DevNo.ne_of_mem_text (e := e) h
  simp [isPlain, hne 42 (by decide), hne 63 (by decide), hne 91 (by decide), hne 92 (by decide)]

theorem DevNo.comma_not_mem_text : 44 ∉ d.text := fun h => absurd (DevNo.mem_text h) (by decide)

theorem DevNo.text_ne_nil : d.text ≠ [] := by simp [DevNo.text]

/-- Only a number with the major zero starts with `0:`. -/
theorem DevNo.unnamed_of_append {t : Bytes} (h : [48, 58] <+: d.text ++ t) :
    [48, 58] <+: d.text := by
  obtain ⟨u, hu⟩ := h
  rw [DevNo.text, append_assoc, cons_append] at hu
  cases hmajor : d.major with
  | nil =>
    rw [hmajor] at hu
    exact absurd (cons.inj hu).1 (by decide : (48 : UInt8) ≠ 58)
  | cons a major =>
    rw [hmajor] at hu
    obtain ⟨rfl, htail⟩ := cons.inj hu
    cases major with
    | nil => exact ⟨d.minor, by rw [DevNo.text, hmajor]; rfl⟩
    | cons c major =>
      obtain ⟨rfl, -⟩ := cons.inj htail
      have hdigit := d.major_digits 58 (by rw [hmajor]; simp)
      exact absurd hdigit.2 (by decide)

end

section

variable {m : Mount} {mounts : List Mount} {w : Bytes}

theorem words_blanks_append (n : Nat) (s : Bytes) : words (List.replicate n 32 ++ s) = words s := by
  induction n with
  | zero => rfl
  | succ n ih => exact (words_append_cons [] rfl _).trans ih

theorem Mount.words_line (m : Mount) : words m.line = [m.dev.text] := by
  rw [Mount.line, words_blanks_append]
  cases hafter : m.after with
  | zero => rw [replicate_zero, append_nil, words_eq_singleton DevNo.text_blank DevNo.text_ne_nil]
  | succ n =>
    rw [replicate_succ, words_append DevNo.text_blank DevNo.text_ne_nil rfl, words_replicate]

theorem Mount.reserved_of_isUnnamed (h : isUnnamed m.line = true) :
    isReserved m.dev.text = true := by
  have hstart : m.line.dropWhile (· = 32) = m.dev.text ++ replicate m.after 32 := by
    obtain ⟨c, t, hct⟩ := exists_cons_of_ne_nil (DevNo.text_ne_nil (d := m.dev))
    have hc : c ≠ 32 := DevNo.ne_of_mem_text (d := m.dev) (hct ▸ mem_cons_self) (by decide)
    rw [Mount.line, hct, cons_append]
    refine Span.dropWhile_stop (fun b hb => ?_) (by simpa using hc)
    simp [eq_of_mem_replicate hb]
  rw [isUnnamed, hstart, List.isPrefixOf_iff_prefix] at h
  have hzero : (text "0:").isPrefixOf m.dev.text = true :=
    List.isPrefixOf_iff_prefix.2 (DevNo.unnamed_of_append h)
  rw [isReserved, hzero]
  rfl

theorem mem_mountedNumbers :
    w ∈ mountedNumbers mounts ↔ ∃ m ∈ mounts, isUnnamed m.line = false ∧ m.dev.text = w := by
  simp only [mountedNumbers, words_unlines, mem_flatMap, mem_sortUniq, mem_filter, mem_map,
    Bool.not_eq_true']
  constructor
  · rintro ⟨_, ⟨⟨m, hm, rfl⟩, hnamed⟩, hw⟩
    rw [m.words_line, mem_singleton] at hw
    exact ⟨m, hm, hnamed, hw.symm⟩
  · rintro ⟨m, hm, hnamed, rfl⟩
    exact ⟨m.line, ⟨⟨m, hm, rfl⟩, hnamed⟩, by rw [m.words_line, mem_singleton]⟩

end

section

variable {t : Tree} {mounts : List Mount} {n : Node} {sh : Shell}

/-- The numbers of the devices are noted as they are, whatever becomes of `dev`. -/
theorem foldl_excludeStep (t : Tree) (dev : Bytes) (ws l : List Bytes) :
    (l.foldl (excludeStep t) (dev, CommaList.enclosed ws)).2 =
      CommaList.enclosed (ws ++ l.filter fun w => (t.readlink w).isSome) := by
  induction l generalizing dev ws with
  | nil => simp
  | cons w l ih =>
    rw [foldl_cons, excludeStep]
    cases hlink : t.readlink w with
    | none => simp [ih, hlink]
    | some path =>
      dsimp only
      rw [← CommaList.enclosed_append, ih]
      simp [hlink]

theorem exclude_eq (t : Tree) (mounts : List Mount) :
    exclude t mounts = CommaList.enclosed ((mountedNumbers mounts).filter fun w =>
      (t.readlink w).isSome) :=
  foldl_excludeStep t [] [] _

theorem isSome_readlink (hn : n ∈ t.nodes) : (t.readlink n.dev.text).isSome = true := by
  rw [Tree.readlink, Option.isSome_map, find?_isSome]
  exact ⟨n, hn, by simp⟩

theorem contains_exclude (hn : n ∈ t.nodes) (hres : isReserved n.dev.text = false) :
    CommaList.contains (exclude t mounts) n.dev.text = true ↔ Mounted mounts n := by
  have hcomma : ∀ w ∈ (mountedNumbers mounts).filter fun w => (t.readlink w).isSome, 44 ∉ w := by
    intro w hw
    obtain ⟨m, -, -, rfl⟩ := mem_mountedNumbers.1 (mem_of_mem_filter hw)
    exact DevNo.comma_not_mem_text
  rw [exclude_eq, CommaList.contains_enclosed hcomma DevNo.comma_not_mem_text DevNo.text_plain,
    mem_filter,
    and_iff_left (isSome_readlink hn), mem_mountedNumbers]
  constructor
  · rintro ⟨m, hm, -, htext⟩
    exact ⟨m, hm, htext⟩
  · rintro ⟨m, hm, htext⟩
    refine ⟨m, hm, Bool.eq_false_iff.2 fun hun => ?_, htext⟩
    rw [← htext, Mount.reserved_of_isUnnamed hun] at hres
    cases hres

/-- What `ks_block_devices` lets pass -/
def Usable (sh : Shell) (mounts : List Mount) (n : Node) : Prop :=
  ¬Mounted mounts n ∧ isReserved n.dev.text = false ∧ ksValidBlockDevice sh n = true

theorem eq_of_name_eq {n' : Node} (hn : n ∈ t.nodes) (hn' : n' ∈ t.nodes) (h : n.name = n'.name) :
    n = n' :=
  inj_on_of_nodup_map t.names_nodup hn hn' h

theorem find?_path (hn : n ∈ t.nodes) : (t.nodes.find? fun m => m.path = n.path) = some n := by
  cases hfind : t.nodes.find? fun m => m.path = n.path with
  | none => exact absurd (find?_eq_none.1 hfind n hn) (by simp)
  | some m =>
    have hpath : m.path = n.path := by simpa using find?_some hfind
    rw [eq_of_name_eq (mem_of_find?_eq_some hfind) hn (congrArg baseName hpath)]

theorem mem_usable {name : Bytes} (hn : n ∈ t.nodes) :
    name ∈ usable sh t (exclude t mounts) n.path ↔ name = n.name ∧ Usable sh mounts n := by
  rw [usable, find?_path hn]
  dsimp only
  cases hres : isReserved n.dev.text with
  | true => simp [Usable, hres]
  | false =>
    have hmounted : CommaList.contains (exclude t mounts) n.dev.text = true ↔ Mounted mounts n :=
      contains_exclude hn hres
    rw [if_neg Bool.false_ne_true]
    split_ifs with hcontains hvalid
    · simp [Usable, hmounted.1 hcontains]
    · simp [Usable, mt hmounted.2 hcontains, hres, hvalid, Node.name]
    · simp [Usable, hvalid]

theorem words_ksListDevices (t : Tree) : words (unlines (ksListDevices t)) = ksListDevices t := by
  have hword : ∀ p ∈ ksListDevices t, words p = [p] := by
    intro p hp
    rw [ksListDevices, mem_insertionSort] at hp
    obtain ⟨n, -, rfl⟩ := mem_map.1 hp
    exact words_eq_singleton n.path_blank n.path_ne
  rw [words_unlines]
  calc (ksListDevices t).flatMap words
      = (ksListDevices t).flatMap fun p => [p] := flatMap_congr hword
    _ = ksListDevices t := flatMap_singleton' _

theorem mem_ksBlockDevices {name : Bytes} :
    name ∈ ksBlockDevices sh t mounts ↔ ∃ n ∈ t.nodes, name = n.name ∧ Usable sh mounts n := by
  rw [ksBlockDevices, words_ksListDevices, mem_flatMap]
  simp only [ksListDevices, mem_insertionSort, mem_map]
  constructor
  · rintro ⟨_, ⟨n, hn, rfl⟩, h⟩
    exact ⟨n, hn, (mem_usable hn).1 h⟩
  · rintro ⟨n, hn, h⟩
    exact ⟨n.path, ⟨n, hn, rfl⟩, (mem_usable hn).2 h⟩

theorem node_mem_nodes {d : Disk} (hd : d ∈ t.disks) : d.node ∈ t.nodes :=
  mem_flatMap.2 ⟨d, hd, mem_cons_self⟩

theorem name_mem_ksBlockDevices {d : Disk} (hd : d ∈ t.disks) :
    d.node.name ∈ ksBlockDevices sh t mounts ↔ Usable sh mounts d.node := by
  rw [mem_ksBlockDevices]
  constructor
  · rintro ⟨n, hn, hname, husable⟩
    rwa [eq_of_name_eq (node_mem_nodes hd) hn hname]
  · intro husable
    exact ⟨d.node, node_mem_nodes hd, rfl, husable⟩

/-- The disks in use are protected exactly if those with a mounted partition are left out for
another reason. -/
theorem protects_iff (sh : Shell) (t : Tree) (mounts : List Mount) :
    Protects sh t mounts ↔ DisksInUseLeftOut sh t mounts := by
  constructor
  · intro hprotects d hd hvirtual hpart
    have hnot := mt (name_mem_ksBlockDevices hd).2 (hprotects d hd hvirtual (.inr hpart))
    by_contra hother
    simp only [not_or, Bool.not_eq_true, Bool.not_eq_false] at hother
    exact hnot hother
  · intro hleft d hd hvirtual hused hmem
    obtain ⟨hmounted, hres, hvalid⟩ := (name_mem_ksBlockDevices hd).1 hmem
    rcases hleft d hd hvirtual (hused.resolve_left hmounted) with h | h | h
    · exact hmounted h
    · cases h.symm.trans hres
    · cases h.symm.trans hvalid

end

/-! ## A disk with a mounted partition -/

/-- `shell_var_is_yes` for `1`, and decimal numbers -/
def plainShell : Shell where
  isYes s := s = text "1"
  isNumber s := s.all Decimal.isDigit
  value := Decimal.value

def sdaNode : Node where
  path := text "/sys/devices/a/block/sda"
  dev := ⟨text "8", text "0", by decide +kernel, by decide +kernel⟩
  partscan := none
  loopPartscan := none
  extRange := some (text "256")
  capability := none
  path_ne := by decide +kernel
  path_blank := not_isBlank_of_all (by decide +kernel)

def sda1Node : Node where
  path := text "/sys/devices/a/block/sda/sda1"
  dev := ⟨text "8", text "1", by decide +kernel, by decide +kernel⟩
  partscan := none
  loopPartscan := none
  extRange := none
  capability := none
  path_ne := by decide +kernel
  path_blank := not_isBlank_of_all (by decide +kernel)

def sda : Disk where
  node := sdaNode
  partitions := [sda1Node]

def sdaTree : Tree where
  disks := [sda]
  names_nodup := by decide +kernel
  devs_nodup := by decide +kernel

/-- `sda1` is mounted, and `sda` is in the list. -/
theorem not_protects : ¬Protects plainShell sdaTree [⟨sda1Node.dev, 2, 0⟩] := by
  intro hprotects
  have hmounted : Mounted [⟨sda1Node.dev, 2, 0⟩] sda1Node := ⟨_, mem_singleton_self _, rfl⟩
  refine hprotects sda (mem_singleton_self _) (by decide +kernel) (.inr ⟨sda1Node, ?_, hmounted⟩) ?_
  · exact mem_singleton_self _
  · decide +kernel

end MakeInitrd.Kickstart
