import MakeInitrd.Lib.Loop
import MakeInitrd.Lib.CMem

/-!
# `read_cpio`

The reader goes from entry to entry: it checks the magic, takes the header, and skips the name and
the body with the lengths the header gives. All its offsets are `unsigned long`, so a huge length
can carry an offset round, and the loop need not end.
-/

namespace MakeInitrd.Initrd

open CNum CMem Loop

/-!
## The newc header

The reader takes a field with `strtoul`, which accepts more than digits and gives a 64-bit number;
the writer prints one with `%08lX`. `Fields.Spelled.parseFields` says that a value below `2 ^ 32` is
read back, however its digits are written.
-/

section
/-- `CPIO_HEADER_SIZE` -/
def headerSize : Nat := 110

/-- `CPIO_FORMAT_LENGTH` -/
def formatLength : Nat := 6

/-- `CPIO_HDR_FIELD_SIZE` -/
def fieldSize : Nat := 8

/-- `CPIO_FORMAT_NEWASCII`, "070701" -/
def newAscii : Bytes := [48, 55, 48, 55, 48, 49]

/-- `CPIO_FORMAT_OLDASCII`, "070707" -/
def oldAscii : Bytes := [48, 55, 48, 55, 48, 55]

/-- `CPIO_TRAILER`, "TRAILER!!!" -/
def trailerName : Bytes := [84, 82, 65, 73, 76, 69, 82, 33, 33, 33]

/-- `UINT_MAX + 1`, the range of `mode_t`, `uid_t`, `gid_t` and `unsigned`. -/
def uintSize : Nat := 2 ^ 32

/-- `N_ALIGN(len)`: `x & ~3UL` clears the two low bits. -/
def nAlign (len : Nat) : Nat :=
  (len + 1) % ulongSize / 4 * 4 + 2

/-- `MKDEV(ma, mi)`, at `unsigned long`. -/
def mkdev (ma mi : Nat) : Nat :=
  (ma <<< 20) % ulongSize ||| mi

/-- `new_encode_dev` -/
def newEncodeDev (dev : Nat) : Nat :=
  let major := (dev >>> 20) % uintSize
  let minor := dev &&& 0xfffff
  (minor &&& 0xff) ||| (major <<< 8) % uintSize ||| ((minor &&& 0xffffff00) <<< 12) % uintSize

/-- The numbers of a `struct cpio_header`. `mtime` is the bit pattern of the `time_t`. The field
`rdev` is assigned in `parse_header` only, from the two fields it is derived from. -/
structure Fields where
  ino : Nat
  major : Nat
  minor : Nat
  rmajor : Nat
  rminor : Nat
  nlink : Nat
  mode : Nat
  mtime : Nat
  bodyLen : Nat
  nameLen : Nat
  uid : Nat
  gid : Nat
  rdev : Nat
  rdev_eq : rdev = newEncodeDev (mkdev rmajor rminor)
deriving DecidableEq

/-- A `struct cpio_header`. -/
structure CpioHeader extends Fields where
  name : Ptr
  body : Ptr
deriving DecidableEq

/-- `parsed[i]`, for the 110 bytes of a header. -/
def parsed (hdr : Bytes) (i : Nat) : Nat :=
  (strtoul 16 (codes ((hdr.drop (formatLength + fieldSize * i)).take fieldSize))).value

/-- The fields of a header; `parsed[12]`, the checksum, is not used. -/
def parseFields (hdr : Bytes) : Fields where
  ino := parsed hdr 0
  mode := parsed hdr 1 % uintSize
  uid := parsed hdr 2 % uintSize
  gid := parsed hdr 3 % uintSize
  nlink := parsed hdr 4
  mtime := parsed hdr 5
  bodyLen := parsed hdr 6
  major := parsed hdr 7
  minor := parsed hdr 8
  rmajor := parsed hdr 9
  rminor := parsed hdr 10
  rdev := newEncodeDev (mkdev (parsed hdr 9) (parsed hdr 10))
  rdev_eq := rfl
  nameLen := parsed hdr 11

/-- `parse_header(s, h)` -/
def parseHeader (s : Ptr) : Option CpioHeader :=
  (s.bytes? headerSize).map fun hdr =>
    let f := parseFields hdr
    let s := s.add headerSize
    { f with
      name := s
      body := s.add (nAlign f.nameLen) }

theorem parseHeader_ptrs {s : Ptr} {h : CpioHeader} (hparse : parseHeader s = some h) :
    h.name = s.add headerSize ∧ h.body = (s.add headerSize).add (nAlign h.nameLen) := by
  obtain ⟨hdr, -, rfl⟩ := Option.map_eq_some_iff.1 hparse
  exact ⟨rfl, rfl⟩

/-- The values of a header in the order they are printed; the checksum is 0. -/
def Fields.printed (f : Fields) : List Nat :=
  [f.ino, f.mode, f.uid, f.gid, f.nlink, f.mtime, f.bodyLen, f.major, f.minor, f.rmajor,
    f.rminor, f.nameLen, 0]

/-- The text `snprintf` prints for a header. Its longest is 206 bytes, below the 256 of the
array. -/
def headerText (f : Fields) : Bytes :=
  newAscii ++ f.printed.flatMap fun v => ascii (fmtX fieldSize v)

/-! ## The header read back -/

/-- Every value fits the 8 digits of its field. -/
def Fields.Printable (f : Fields) : Prop :=
  ∀ v ∈ f.printed, v < uintSize

instance (f : Fields) : Decidable f.Printable :=
  inferInstanceAs (Decidable (∀ v ∈ f.printed, v < uintSize))

/-- The header with these texts in its fields -/
def headerOf (texts : List Bytes) : Bytes :=
  newAscii ++ texts.flatten

/-- The texts of the fields: eight digits of either case each, with the values of the header and any
checksum. -/
structure Fields.Spelled (f : Fields) (texts : List Bytes) : Prop where
  length : ∀ s ∈ texts, s.length = fieldSize
  digits : ∀ s ∈ texts, Plain (codes s)
  values : ∃ check, texts.map (fun s => digitsValue 16 (codes s)) = f.printed.dropLast ++ [check]

variable {f : Fields} {texts : List Bytes}

theorem headerText_eq (f : Fields) :
    headerText f = headerOf (f.printed.map fun v => ascii (fmtX fieldSize v)) := by
  rw [headerText, headerOf, List.flatMap_def]

/-- The writer spells the values, where they fit. -/
theorem Fields.Printable.spelled (h : f.Printable) :
    f.Spelled (f.printed.map fun v => ascii (fmtX fieldSize v)) := by
  have hsize : uintSize = 16 ^ fieldSize := by decide
  have hcodes (v : Nat) : codes (ascii (fmtX fieldSize v)) = fmtX fieldSize v := by
    refine codes_ascii fun c hc => ?_
    obtain ⟨d, hd, rfl⟩ := exists_of_mem_fmtX hc
    unfold hexCode
    split <;> omega
  refine ⟨List.forall_mem_map.2 fun v hv => ?_, List.forall_mem_map.2 fun v _ => ?_, 0, ?_⟩
  · rw [ascii, List.length_map]
    exact length_fmtX (hsize ▸ h v hv)
  · rw [hcodes]
    exact plain_fmtX _ _
  · rw [List.map_map]
    refine (List.map_congr_left fun v _ => ?_).trans (List.map_id _)
    rw [Function.comp_apply, hcodes, digitsValue_fmtX, id]

theorem Fields.Spelled.length_headerOf (h : f.Spelled texts) :
    (headerOf texts).length = headerSize := by
  obtain ⟨check, hvalues⟩ := h.values
  have hcount : texts.length = 13 := by simpa [Fields.printed] using congrArg List.length hvalues
  rw [headerOf, List.length_append, List.length_flatten, List.map_congr_left h.length,
    List.map_const', List.sum_replicate, hcount]
  decide

theorem length_headerText (h : f.Printable) : (headerText f).length = headerSize := by
  rw [headerText_eq]
  exact h.spelled.length_headerOf

theorem Fields.Spelled.parsed (h : f.Spelled texts) {i v : Nat}
    (hi : f.printed.dropLast[i]? = some v) (hv : v < uintSize) : parsed (headerOf texts) i = v := by
  obtain ⟨check, hvalues⟩ := h.values
  have hget := congrArg (·[i]?) hvalues
  rw [List.getElem?_append_left (List.getElem?_eq_some_iff.1 hi).1, hi, List.getElem?_map,
    Option.map_eq_some_iff] at hget
  obtain ⟨s, hs, rfl⟩ := hget
  obtain ⟨hlt, rfl⟩ := List.getElem?_eq_some_iff.1 hs
  have hmem := List.getElem_mem hlt
  have hfield : ((headerOf texts).drop (formatLength + fieldSize * i)).take fieldSize =
      texts[i] := by
    rw [← List.drop_drop]
    exact take_drop_flatten h.length i hlt
  have hne : codes texts[i] ≠ [] := by
    rw [codes, ne_eq, List.map_eq_nil_iff]
    exact List.ne_nil_of_length_pos (h.length _ hmem ▸ by decide)
  rw [Initrd.parsed, hfield, strtoul_plain (h.digits _ hmem) hne (hv.trans (by decide))]

/-- The reader finds the values of the header, however they are spelled. -/
theorem Fields.Spelled.parseFields (hs : f.Spelled texts) (h : f.Printable) :
    parseFields (headerOf texts) = f := by
  have hval {i v : Nat} (hi : f.printed.dropLast[i]? = some v) : Initrd.parsed (headerOf texts) i =
      v := hs.parsed hi (h v (List.mem_of_mem_dropLast (List.mem_of_getElem? hi)))
  have hmod {i v : Nat} (hi : f.printed.dropLast[i]? = some v) :
      Initrd.parsed (headerOf texts) i % uintSize = v := by
    rw [hval hi, Nat.mod_eq_of_lt (h v (List.mem_of_mem_dropLast (List.mem_of_getElem? hi)))]
  have hrdev : newEncodeDev (mkdev (Initrd.parsed (headerOf texts) 9)
      (Initrd.parsed (headerOf texts) 10)) = f.rdev := by
    rw [f.rdev_eq, hval (v := f.rmajor) rfl, hval (v := f.rminor) rfl]
  generalize headerOf texts = hdr at *
  cases f
  simp only [Initrd.parseFields, Fields.mk.injEq]
  exact ⟨hval rfl, hval rfl, hval rfl, hval rfl, hval rfl, hval rfl, hmod rfl, hval rfl, hval rfl,
    hval rfl, hmod rfl, hmod rfl, hrdev⟩

end

/-! ## The reader -/

/-- `enum cpio_type` -/
inductive CpioType where
  | unknown
  | archive
  | bootconfig
deriving DecidableEq

/-- The texts a `compress` label points to. -/
inductive Label where
  | raw
  | gzip
  | bzip2
  | lzma
  | xz
  | zstd
  | lzo
  | lz4
deriving DecidableEq

/-- A `struct cpio`. -/
structure Cpio where
  type : CpioType
  compress : Option Label
  raw : Ptr
  size : Nat
  headers : List CpioHeader
deriving DecidableEq

/-- Why `read_cpio` does not return. -/
inductive CpioError where
  /-- "archive less than header" -/
  | archiveLess
  /-- "incorrect cpio method used: use -H newc option" -/
  | oldMethod
  /-- "no cpio magic" -/
  | noMagic
  /-- "cpio header exceeds archive size" -/
  | headerExceeds
  /-- "invalid cpio name length" -/
  | nameLength
  /-- "cpio entry exceeds archive size" -/
  | entryExceeds
  /-- not an exit of the source: it reads outside the memory of the archive -/
  | outOfBounds
deriving DecidableEq

/-- `list_append`, for an allocation that succeeds. -/
def listAppend {α : Type*} (l : List α) (x : α) : List α :=
  l ++ [x]

/-- `list_shift`: it takes the last element off. -/
def listShift {α : Type*} (l : List α) : List α :=
  l.dropLast

/-- One entry: the checks of the loop of `read_cpio` up to the new offset. -/
def readEntry (a : Cpio) (offset : Nat) : Except CpioError (CpioHeader × Nat) :=
  if a.size < formatLength + headerSize then .error .archiveLess
  else match (a.raw.add offset).bytes? formatLength with
  | none => .error .outOfBounds
  | some magic =>
    if magic = oldAscii then .error .oldMethod
    else if magic ≠ newAscii then .error .noMagic
    else if a.size < (offset + headerSize) % ulongSize then .error .headerExceeds
    else match parseHeader (a.raw.add offset) with
    | none => .error .outOfBounds
    | some h =>
      if h.nameLen = 0 then .error .nameLength
      else
        let offset := (offset + headerSize) % ulongSize
        if a.size < (offset + nAlign h.nameLen + h.bodyLen) % ulongSize then .error .entryExceeds
        else
          let offset := (offset + nAlign h.nameLen + h.bodyLen) % ulongSize
          let offset := (offset + 3) % ulongSize / 4 * 4
          if a.size < offset then .error .entryExceeds else .ok (h, offset)

/-- The test for the trailer: the name starts with it, and its length leaves room for the NUL. -/
def isTrailer (h : CpioHeader) : Option Bool :=
  if trailerName.length + 1 ≤ h.nameLen then
    (h.name.bytes? trailerName.length).map (· == trailerName)
  else some false

/-- One round of the loop of `read_cpio`, with the offset and the headers so far. After the trailer
`while (offset % 512) offset++` moves to the next multiple of 512. -/
def readRound (a : Cpio) (st : Nat × List CpioHeader) :
    Next (Nat × List CpioHeader) (Except CpioError (Nat × List CpioHeader)) :=
  if st.1 < a.size then
    match readEntry a st.1 with
    | .error e => .done (.error e)
    | .ok (h, offset) =>
      let headers := listAppend st.2 h
      match isTrailer h with
      | none => .done (.error .outOfBounds)
      | some true => .done (.ok ((offset + padLen 512 offset) % ulongSize, listShift headers))
      | some false => .again (offset, headers)
  else .done (.ok st)

/-- `read_cpio(a)` ends with `r`: the offset it returns and the new `a->headers`, or an error. -/
def ReadCpio (a : Cpio) (r : Except CpioError (Nat × List CpioHeader)) : Prop :=
  Returns (readRound a) (0, a.headers) r

variable {a : Cpio} {h : CpioHeader} {offset offset' : Nat} {hs : List CpioHeader}

/-- The offset behind an entry, as the loop computes it from the offset of its header. -/
def nextOffset (offset : Nat) (f : Fields) : Nat :=
  (offset + headerSize + nAlign f.nameLen + f.bodyLen + 3) % ulongSize / 4 * 4

/-- The checks that an accepted entry has passed -/
theorem readEntry_eq_ok :
    readEntry a offset = .ok (h, offset') ↔ formatLength + headerSize ≤ a.size ∧
    (a.raw.add offset).bytes? formatLength = some newAscii ∧
    (offset + headerSize) % ulongSize ≤ a.size ∧
    parseHeader (a.raw.add offset) = some h ∧
    h.nameLen ≠ 0 ∧
    (offset + headerSize + nAlign h.nameLen + h.bodyLen) % ulongSize ≤ a.size ∧
    offset' = nextOffset offset h.toFields ∧ offset' ≤ a.size := by
  -- the offsets of the source are reduced at every step, `nextOffset` only once
  have hsum {x y z : Nat} : ((x + headerSize) % ulongSize + y + z) % ulongSize =
      (x + headerSize + y + z) % ulongSize := by
    simp only [ulongSize]
    omega
  have hnext : ((offset + headerSize + nAlign h.nameLen + h.bodyLen) % ulongSize + 3) % ulongSize /
      4 * 4 = nextOffset offset h.toFields := by
    simp only [nextOffset, ulongSize]
    omega
  unfold readEntry
  constructor
  · intro hok
    dsimp only at hok
    repeat' split at hok
    all_goals cases hok
    next hsize _ magic hmagic hold hnew hhdr _ hparse hname hend hlast =>
    simp only [hsum] at hend hlast ⊢
    rw [Decidable.not_not] at hnew
    exact ⟨Nat.not_lt.1 hsize, hnew ▸ hmagic, Nat.not_lt.1 hhdr, hparse, hname, Nat.not_lt.1 hend,
      hnext, Nat.not_lt.1 hlast⟩
  · rintro ⟨hsize, hmagic, hhdr, hparse, hname, hend, rfl, hlast⟩
    rw [if_neg (Nat.not_lt.2 hsize), hmagic]
    dsimp only
    rw [if_neg (by decide), if_neg (by decide), if_neg (Nat.not_lt.2 hhdr), hparse]
    dsimp only
    rw [if_neg hname, hsum, if_neg (Nat.not_lt.2 hend), hnext, if_neg (Nat.not_lt.2 hlast)]

theorem readRound_again {st : Nat × List CpioHeader} (hr : readRound a (offset, hs) = .again st) :
    offset < a.size ∧ ∃ h offset', readEntry a offset = .ok (h, offset') ∧
      isTrailer h = some false ∧ st = (offset', hs ++ [h]) := by
  unfold readRound at hr
  repeat' split at hr
  all_goals cases hr
  next hlt _ h offset' hok _ htr => exact ⟨hlt, h, offset', hok, htr, rfl⟩

theorem readRound_done {n : Nat} {hs' : List CpioHeader}
    (hr : readRound a (offset, hs) = .done (.ok (n, hs'))) : hs' = hs := by
  unfold readRound at hr
  repeat' split at hr
  all_goals cases hr
  · exact List.dropLast_concat
  · rfl

end MakeInitrd.Initrd
