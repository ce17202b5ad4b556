import MakeInitrd.Initrd.CpioRead

/-!
# Archives as sequences of entries

The abstract side of the format. An `Entry` is what a header shows: its numbers, its name as a C
string and the bytes of its body. `layout` says which bytes stand for an entry, `archive` for a list
of entries. The writer produces the layout of what its headers show (`writeArchive_eq`), and the
reader finds it there (`readCpio_archive`).
-/

namespace MakeInitrd.Initrd

open CNum CMem Loop

/-! ## The writer -/

/-- What a function of the writer does: the bytes it hands to `output`, the offset it returns. -/
abbrev Written := Bytes × Nat

/-- `push_hdr` -/
def pushHdr (s : Bytes) (offset : Nat) : Written :=
  (s.take headerSize, (offset + headerSize) % ulongSize)

/-- `push_rest`, for the C string `name`. -/
def pushRest (name : Bytes) (offset : Nat) : Written :=
  let nameLen := name.length + 1
  let pad := padLen 4 (headerSize + nameLen)
  (name ++ [0] ++ zeros pad, (offset + nameLen + pad) % ulongSize)

/-- `push_string`, for the C string `name`. -/
def pushString (name : Bytes) (offset : Nat) : Written :=
  (name ++ [0], (offset + (name.length + 1)) % ulongSize)

/-- `push_pad` -/
def pushPad (offset : Nat) : Written :=
  (zeros (padLen 4 offset), (offset + padLen 4 offset) % ulongSize)

/-- The file types of the `switch` in `write_cpio`: `S_IFBLK`, `S_IFCHR`, `S_IFDIR`, `S_IFIFO` and
`S_IFSOCK`, under `S_IFMT`. -/
def bodyless (mode : Nat) : Bool :=
  [0o060000, 0o020000, 0o040000, 0o010000, 0o140000].contains (mode &&& 0o170000)

/-- `write_cpio(data, offset, output)` -/
def writeCpio (data : CpioHeader) (offset : Nat) : Option Written := do
  let name ← data.name.cstr?
  let (hdr, offset) := pushHdr (headerText data.toFields) offset
  if bodyless data.mode then
    let (rest, offset) := pushRest name offset
    some (hdr ++ rest, offset)
  else
    let (str, offset) := pushString name offset
    let (pad, offset) := pushPad offset
    if data.bodyLen ≠ 0 then
      let body ← data.body.bytes? data.bodyLen
      let (pad', offset) := pushPad ((offset + data.bodyLen) % ulongSize)
      some (hdr ++ (str ++ pad) ++ (body ++ pad'), offset)
    else some (hdr ++ (str ++ pad), offset)

theorem newEncodeDev_zero : 0 = newEncodeDev (mkdev 0 0) := rfl

/-- The header `write_trailer` prints. -/
def trailerFields : Fields where
  ino := 0
  mode := 0
  uid := 0
  gid := 0
  nlink := 1
  mtime := 0
  bodyLen := 0
  major := 0
  minor := 0
  rmajor := 0
  rminor := 0
  rdev := 0
  rdev_eq := newEncodeDev_zero
  nameLen := trailerName.length + 1

/-- `write_trailer(offset, output)` -/
def writeTrailer (offset : Nat) : Bytes :=
  let (hdr, offset) := pushHdr (headerText trailerFields) offset
  let (rest, offset) := pushRest trailerName offset
  hdr ++ rest ++ zeros (padLen 512 offset)

/-- The inner loop of `main`: the headers of one archive, with the offset threaded through. -/
def writeHeaders : List CpioHeader → Nat → Option Written
  | [], offset => some ([], offset)
  | h :: hs, offset => do
    let (out, offset) ← writeCpio h offset
    let (out', offset) ← writeHeaders hs offset
    some (out ++ out', offset)

/-- The outer loop of `main` of `initrd-extract`, from archive number `c` on; `nArchive` is 0
without the option `--archive`. -/
def extractCpios (nArchive : Nat) : List Cpio → Nat → Nat → Option Written
  | [], _, offset => some ([], offset)
  | l :: ls, c, offset =>
    if l.type ≠ .archive then extractCpios nArchive ls (c + 1) offset
    else if nArchive = 0 ∨ c = nArchive then do
      let (out, offset) ← writeHeaders l.headers offset
      let (out', offset) ← extractCpios nArchive ls (c + 1) offset
      some (out ++ out', offset)
    else extractCpios nArchive ls (c + 1) offset

/-- What `initrd-extract` writes for the archives `read_stream` found. -/
def extract (nArchive : Nat) (cpios : List Cpio) : Option Bytes := do
  let (out, offset) ← extractCpios nArchive cpios 1 0
  some (out ++ writeTrailer offset)

def writeArchive (hs : List CpioHeader) : Option Bytes := do
  let (out, offset) ← writeHeaders hs 0
  some (out ++ writeTrailer offset)

theorem extract_singleton {a : Cpio} (h : a.type = .archive) :
    extract 0 [a] = writeArchive a.headers := by
  simp only [extract, extractCpios, writeArchive, h, ne_eq, not_true_eq_false, if_false, true_or,
    if_true, Option.bind_eq_bind, Option.bind_assoc, Option.bind_some, List.append_nil]

/-- What a header shows. -/
structure Entry extends Fields where
  name : Bytes
  body : Bytes
  name_nul : 0 ∉ name
  body_length : body.length = bodyLen
deriving DecidableEq

/-- What a header shows, where its name and its body can be read. -/
def CpioHeader.view (h : CpioHeader) : Option Entry :=
  match hn : h.name.cstr?, hb : h.body.bytes? h.bodyLen with
  | some name, some body => some
    { h.toFields with
      name := name
      body := body
      name_nul := (Ptr.cstr?_eq_some.1 hn).1
      body_length := (Ptr.bytes?_inv hb).1 }
  | _, _ => none

def viewAll (hs : List CpioHeader) : Option (List Entry) :=
  hs.mapM CpioHeader.view

theorem CpioHeader.view_eq_some {h : CpioHeader} {e : Entry} : h.view = some e ↔
    h.toFields = e.toFields ∧ h.name.cstr? = some e.name ∧ h.body.bytes? h.bodyLen =
      some e.body := by
  unfold CpioHeader.view
  split
  · next name body hn hb =>
    constructor
    · rintro ⟨⟩
      exact ⟨rfl, hn, hb⟩
    · rintro ⟨hf, hn', hb'⟩
      obtain ⟨f, name', body', hnul, hlen⟩ := e
      cases hn.symm.trans hn'
      cases hb.symm.trans hb'
      cases hf
      rfl
  · next hnone =>
    refine ⟨nofun, ?_⟩
    rintro ⟨-, hn, hb⟩
    exact (hnone _ _ hn hb).elim

/-! ## Layout -/

/-- The name of an entry with its NUL and its padding. -/
def Entry.paddedName (e : Entry) : Bytes :=
  e.name ++ 0 :: zeros (padLen 4 (headerSize + (e.name.length + 1)))

/-- The bytes that stand for an entry. -/
def layout (e : Entry) : Bytes :=
  headerText e.toFields ++ (e.paddedName ++ (e.body ++ zeros (padLen 4 e.bodyLen)))

/-- The bytes stand for the entry, however its numbers are spelled and its name and its body are
padded. -/
def Entry.Spelled (e : Entry) (bs : Bytes) : Prop :=
  ∃ texts namePad bodyPad, e.toFields.Spelled texts ∧
    namePad.length = padLen 4 (headerSize + (e.name.length + 1)) ∧
    bodyPad.length = padLen 4 e.bodyLen ∧
    bs = headerOf texts ++ (e.name ++ 0 :: namePad ++ (e.body ++ bodyPad))

def trailerEntry : Entry where
  toFields := trailerFields
  name := trailerName
  body := []
  name_nul := by decide
  body_length := List.length_nil

/-- The bytes that stand for a list of entries: the entries, the trailer, and zeros up to a multiple
of 512. -/
def archive (es : List Entry) : Bytes :=
  let bs := es.flatMap layout ++ layout trailerEntry
  bs ++ zeros (padLen 512 bs.length)

/-- The reader skips the name the writer writes, and there is a body only where one is written. -/
structure Entry.Encodable (e : Entry) : Prop where
  printable : e.Printable
  nameLen_ne : e.nameLen ≠ 0
  align : nAlign e.nameLen = e.paddedName.length
  bodyless : bodyless e.mode → e.bodyLen = 0

/-- The reader skips the name that is laid out, and every number fits its field. -/
structure Entry.Readable (e : Entry) : Prop where
  printable : e.Printable
  nameLen_ne : e.nameLen ≠ 0
  align : nAlign e.nameLen = e.paddedName.length

/-- The reader takes the entry for the trailer. -/
def Entry.IsTrailer (e : Entry) : Prop :=
  trailerName.length + 1 ≤ e.nameLen ∧ trailerName <+: e.name

variable {e : Entry} {bs : Bytes}

theorem Entry.Encodable.readable (he : e.Encodable) : e.Readable :=
  ⟨he.printable, he.nameLen_ne, he.align⟩

theorem length_paddedName (e : Entry) :
    e.paddedName.length = e.name.length + 1 + padLen 4 (headerSize + (e.name.length + 1)) := by
  simp only [Entry.paddedName, List.length_append, List.length_cons, List.length_replicate]
  omega

theorem Entry.Readable.spelled (he : e.Readable) : e.Spelled (layout e) := by
  refine ⟨_, zeros _, zeros _, he.printable.spelled, List.length_replicate,
    List.length_replicate, ?_⟩
  rw [layout, headerText_eq]
  rfl

theorem Entry.Readable.length_eq (he : e.Readable) (hbs : e.Spelled bs) :
    bs.length = headerSize + nAlign e.nameLen + e.bodyLen + padLen 4 e.bodyLen := by
  obtain ⟨texts, namePad, bodyPad, htexts, hname, hbody, rfl⟩ := hbs
  rw [he.align, length_paddedName]
  simp only [List.length_append, List.length_cons, htexts.length_headerOf, hname, hbody,
    e.body_length]
  omega

theorem Entry.Readable.length_mod (he : e.Readable) (hbs : e.Spelled bs) : bs.length % 4 = 0 := by
  rw [he.length_eq hbs, he.align, length_paddedName]
  simp only [padLen, headerSize]
  omega

theorem Entry.Encodable.dvd_length_layout (he : e.Encodable) : 4 ∣ (layout e).length :=
  Nat.dvd_of_mod_eq_zero (he.readable.length_mod he.readable.spelled)

theorem isTrailer_trailerEntry : trailerEntry.IsTrailer := by
  unfold Entry.IsTrailer
  decide

theorem encodable_trailerEntry : trailerEntry.Encodable where
  printable := by decide
  nameLen_ne := by decide
  align := by decide
  bodyless := by decide

/-! ## The writer writes layouts -/

section

variable {h : CpioHeader} {offset : Nat}

/-- `push_pad` after an offset that may have wrapped round. -/
theorem pushPad_mod (n : Nat) :
    pushPad (n % ulongSize) = (zeros (padLen 4 n), (n + padLen 4 n) % ulongSize) := by
  rw [pushPad, padLen_mod (by decide), Nat.mod_add_mod]

theorem pushRest_name (e : Entry) (n : Nat) :
    pushRest e.name (n % ulongSize) = (e.paddedName, (n + e.paddedName.length) % ulongSize) := by
  rw [length_paddedName]
  simp only [pushRest, Entry.paddedName, List.append_assoc, List.singleton_append, Nat.add_assoc,
    Nat.mod_add_mod]

/-- At a multiple of 4 the running offset pads a name as `push_rest` does. -/
theorem pushPad_name (e : Entry) (ho : 4 ∣ offset) :
    pushPad (pushString e.name ((offset + headerSize) % ulongSize)).2 =
      (zeros (padLen 4 (headerSize + (e.name.length + 1))),
        (offset + headerSize + e.paddedName.length) % ulongSize) := by
  rw [pushString, Nat.mod_add_mod, pushPad_mod, Nat.add_assoc offset, padLen_add ho,
    length_paddedName]
  congr 2
  omega

theorem layout_of_bodyLen_eq_zero (h0 : e.bodyLen = 0) :
    layout e = headerText e.toFields ++ e.paddedName := by
  have hnil : e.body = [] := List.length_eq_zero_iff.1 (e.body_length.trans h0)
  rw [layout, hnil, h0]
  exact congrArg _ (List.append_nil _)

/-- `write_cpio` writes the layout of what its header shows, wherever a multiple of 4 is reached. -/
theorem writeCpio_eq (hv : h.view = some e) (he : e.Encodable) (ho : 4 ∣ offset) :
    writeCpio h offset = some (layout e, (offset + (layout e).length) % ulongSize) := by
  obtain ⟨hf, hname, hbody⟩ := CpioHeader.view_eq_some.1 hv
  have hhdr : (headerText e.toFields).length = headerSize := length_headerText he.printable
  have hstr : (pushString e.name ((offset + headerSize) % ulongSize)).1 ++
      zeros (padLen 4 (headerSize + (e.name.length + 1))) = e.paddedName :=
    List.append_assoc ..
  simp only [writeCpio, hname, hf, pushHdr, List.take_of_length_le hhdr.le, Option.bind_eq_bind,
    Option.bind_some]
  by_cases hb : bodyless e.mode = true
  · rw [if_pos hb, pushRest_name, layout_of_bodyLen_eq_zero (he.bodyless hb), List.length_append,
      hhdr, Nat.add_assoc]
  · rw [if_neg hb, pushPad_name e ho, hstr]
    by_cases h0 : e.bodyLen = 0
    · rw [if_neg (not_not.2 h0), layout_of_bodyLen_eq_zero h0, List.length_append, hhdr,
        Nat.add_assoc]
    · -- the body starts at a multiple of 4, so the running offset pads it by its own length
      have hstart : 4 ∣ offset + headerSize + e.paddedName.length := by
        have hpad := dvd_add_padLen (m := 4) (by decide) (headerSize + (e.name.length + 1))
        rw [length_paddedName]
        omega
      have hend : offset + (layout e).length =
          offset + headerSize + e.paddedName.length + e.bodyLen + padLen 4 e.bodyLen := by
        rw [he.readable.length_eq he.readable.spelled, he.align]
        omega
      rw [if_pos h0, ← hf, hbody, Option.bind_some, Nat.mod_add_mod, pushPad_mod, padLen_add hstart,
        hf, hend, layout, List.append_assoc]

theorem viewAll_nil {es : List Entry} : viewAll [] = some es ↔ es = [] := by
  simp [viewAll, eq_comm]

theorem viewAll_cons {hs : List CpioHeader} {es : List Entry} : viewAll (h :: hs) = some es ↔
    ∃ e es', h.view = some e ∧ viewAll hs = some es' ∧ es = e :: es' := by
  simp only [viewAll, List.mapM_cons, Option.bind_eq_bind, Option.bind_eq_some_iff, Option.pure_def,
    Option.some.injEq]
  grind

theorem viewAll_append {hs hs' : List CpioHeader} {es es' : List Entry}
    (h : viewAll hs = some es) (h' : viewAll hs' = some es') :
    viewAll (hs ++ hs') = some (es ++ es') := by
  rw [viewAll] at *
  simp [List.mapM_append, h, h']

theorem writeHeaders_eq : ∀ {hs : List CpioHeader} {es : List Entry} {offset : Nat},
    viewAll hs = some es → (∀ e ∈ es, e.Encodable) → 4 ∣ offset →
    writeHeaders hs (offset % ulongSize) =
      some (es.flatMap layout, (offset + (es.flatMap layout).length) % ulongSize)
  | [], es, offset, hv, _, _ => by
    rw [viewAll_nil.1 hv]
    rfl
  | h :: hs, es, offset, hv, he, ho => by
    obtain ⟨e, es, hview, hviews, rfl⟩ := viewAll_cons.1 hv
    have hmod : 4 ∣ offset % ulongSize := (Nat.dvd_mod_iff (by decide)).2 ho
    have hnext : 4 ∣ offset + (layout e).length :=
      Nat.dvd_add ho (he e (.head _)).dvd_length_layout
    have hrest := writeHeaders_eq hviews (fun e' h' => he e' (.tail _ h')) hnext
    simp only [writeHeaders, writeCpio_eq hview (he e (.head _)) hmod, Nat.mod_add_mod, hrest,
      Option.bind_eq_bind, Option.bind_some, List.flatMap_cons, List.length_append, Nat.add_assoc]

theorem writeTrailer_eq (n : Nat) : writeTrailer (n % ulongSize) =
    layout trailerEntry ++ zeros (padLen 512 (n + (layout trailerEntry).length)) := by
  have hhdr : (headerText trailerFields).length = headerSize :=
    length_headerText encodable_trailerEntry.printable
  have hlay : layout trailerEntry = headerText trailerFields ++ trailerEntry.paddedName :=
    layout_of_bodyLen_eq_zero rfl
  have hrest := pushRest_name trailerEntry (n + headerSize)
  simp only [writeTrailer, pushHdr, List.take_of_length_le hhdr.le, Nat.mod_add_mod]
  rw [show trailerName = trailerEntry.name from rfl, hrest, padLen_mod (by decide), hlay,
    List.length_append, hhdr, Nat.add_assoc]

theorem writeArchive_eq {hs : List CpioHeader} {es : List Entry} (hv : viewAll hs = some es)
    (he : ∀ e ∈ es, e.Encodable) : writeArchive hs = some (archive es) := by
  have hall := writeHeaders_eq hv he (Nat.dvd_zero 4)
  rw [Nat.zero_mod, Nat.zero_add] at hall
  simp only [writeArchive, hall, writeTrailer_eq, Option.bind_eq_bind, Option.bind_some, archive,
    List.length_append, List.append_assoc]

end

/-! ## The reader reads layouts -/

theorem prefix_of_prefix_append_nul {w s t : Bytes} (hw : 0 ∉ w) : w <+: s ++ 0 :: t ↔ w <+: s := by
  refine ⟨fun h => ?_, fun h => h.trans (List.prefix_append _ _)⟩
  by_cases hlen : w.length ≤ s.length
  · exact List.prefix_of_prefix_length_le h (List.prefix_append _ _) hlen
  · have hs : s ++ [0] <+: s ++ 0 :: t := ⟨t, by simp⟩
    have hsw : s ++ [0] <+: w :=
      List.prefix_of_prefix_length_le hs h (by simpa using Nat.not_le.1 hlen)
    exact absurd (hsw.subset (by simp)) hw

section

variable {a : Cpio} {offset : Nat} {t : Bytes}

instance (e : Entry) : Decidable e.IsTrailer :=
  inferInstanceAs (Decidable (_ ∧ _))

theorem length_trailerName_le_nAlign {len : Nat} (h : trailerName.length + 1 ≤ len)
    (hlen : len < uintSize) : trailerName.length ≤ nAlign len := by
  have hten : trailerName.length = 10 := rfl
  simp only [nAlign, ulongSize, uintSize] at *
  omega

theorem isTrailer_eq {h : CpioHeader} (hf : h.toFields = e.toFields)
    (hname : h.name.cstr? = some e.name)
    (hroom : trailerName.length + 1 ≤ e.nameLen → trailerName.length ≤ h.name.rest.length) :
    isTrailer h = some (decide e.IsTrailer) := by
  obtain ⟨-, t, ht⟩ := Ptr.cstr?_eq_some.1 hname
  rw [isTrailer, hf]
  by_cases hlen : trailerName.length + 1 ≤ e.nameLen
  · have hstart : h.name.rest.take trailerName.length = trailerName ↔ e.IsTrailer := by
      rw [eq_comm, ← List.prefix_iff_eq_take, ht, prefix_of_prefix_append_nul (by decide)]
      exact iff_and_self.2 fun _ => hlen
    rw [if_pos hlen, Ptr.bytes?_of_le (hroom hlen), Option.map_some, beq_eq_decide,
      decide_eq_decide.2 hstart]
  · rw [if_neg hlen, decide_eq_false fun htr : e.IsTrailer => hlen htr.1]

/-- The reader finds the entry in its bytes. -/
theorem parseHeader_spelled {p : Ptr} (he : e.Readable) (hbs : e.Spelled bs)
    (hp : p.rest = bs ++ t) :
    ∃ h, parseHeader p = some h ∧ h.view = some e ∧ isTrailer h = some (decide e.IsTrailer) := by
  obtain ⟨texts, namePad, bodyPad, htexts, hnamePad, -, rfl⟩ := hbs
  have hhdr := htexts.length_headerOf
  have halign : nAlign e.nameLen = (e.name ++ 0 :: namePad).length := by
    rw [he.align, length_paddedName, List.length_append, List.length_cons, hnamePad]
    omega
  -- the bytes, split where the reader puts its pointers
  have hrest :
      p.rest = headerOf texts ++ (e.name ++ 0 :: namePad ++ (e.body ++ (bodyPad ++ t))) := by
    rw [hp]
    simp only [List.append_assoc]
  have hread : p.bytes? headerSize = some (headerOf texts) :=
    hhdr ▸ Ptr.bytes?_of_rest hrest
  have hname : (p.add headerSize).rest = e.name ++ 0 :: namePad ++ (e.body ++ (bodyPad ++ t)) :=
    hhdr ▸ Ptr.rest_add_length hrest (List.ne_nil_of_length_pos (hhdr ▸ by decide))
  have hbody : ((p.add headerSize).add (nAlign e.nameLen)).rest = e.body ++ (bodyPad ++ t) :=
    halign ▸ Ptr.rest_add_length hname (by simp)
  let h : CpioHeader :=
    { e.toFields with
      name := p.add headerSize
      body := (p.add headerSize).add (nAlign e.nameLen) }
  have hparse : parseHeader p = some h := by
    simp only [parseHeader, hread, htexts.parseFields he.printable, Option.map_some, h]
  have hcstr : h.name.cstr? = some e.name :=
    Ptr.cstr?_eq_some.2 ⟨e.name_nul, _, by rw [hname, List.append_assoc]; rfl⟩
  have hbytes : h.body.bytes? h.bodyLen = some e.body :=
    e.body_length ▸ Ptr.bytes?_of_rest hbody
  have hroom (hlen : trailerName.length + 1 ≤ e.nameLen) :
      trailerName.length ≤ h.name.rest.length := by
    have hskip := length_trailerName_le_nAlign hlen (he.printable _ (by simp [Fields.printed]))
    rw [hname, List.length_append, ← halign]
    omega
  exact ⟨h, hparse, CpioHeader.view_eq_some.2 ⟨rfl, hcstr, hbytes⟩, isTrailer_eq rfl hcstr hroom⟩

theorem nextOffset_spelled (he : e.Readable) (hbs : e.Spelled bs) (ho : 4 ∣ offset)
    (hmax : offset + bs.length ≤ objectMax) :
    nextOffset offset e.toFields = offset + bs.length := by
  have hlen := he.length_eq hbs
  simp only [nextOffset, padLen, nAlign, headerSize, ulongSize, objectMax] at *
  omega

/-- One round of the reader at an entry: it stops at the trailer and goes on behind any other
entry. -/
theorem readRound_spelled (he : e.Readable) (hbs : e.Spelled bs)
    (hrest : a.raw.rest.drop offset = bs ++ t) (ho : 4 ∣ offset)
    (hfit : offset + bs.length ≤ a.size) (hmin : formatLength + headerSize ≤ a.size)
    (hsize : a.size ≤ a.raw.rest.length) (hs : List CpioHeader) :
    ∃ h, h.view = some e ∧ readRound a (offset, hs) =
      if e.IsTrailer then
        let o := offset + bs.length
        .done (.ok (o + padLen 512 o, hs))
      else .again (offset + bs.length, hs ++ [h]) := by
  have hlen := he.length_eq hbs
  have hpos : 0 < a.raw.rest.length := Nat.lt_of_lt_of_le (by decide) (hmin.trans hsize)
  have hmax : a.size ≤ objectMax := hsize.trans a.raw.length_rest_le
  have hptr : (a.raw.add offset).rest = bs ++ t := by
    rw [Ptr.rest_add (by omega) (List.ne_nil_of_length_pos hpos), hrest]
  obtain ⟨h, hparse, hview, htr⟩ := parseHeader_spelled he hbs hptr
  have hf : h.toFields = e.toFields := (CpioHeader.view_eq_some.1 hview).1
  have hmagic : (a.raw.add offset).bytes? formatLength = some newAscii := by
    obtain ⟨texts, namePad, bodyPad, -, -, -, rfl⟩ := hbs
    rw [headerOf, List.append_assoc, List.append_assoc] at hptr
    exact Ptr.bytes?_of_rest hptr
  have hentry : readEntry a offset = .ok (h, offset + bs.length) := by
    refine readEntry_eq_ok.2 ⟨hmin, hmagic, ?_, hparse, hf ▸ he.nameLen_ne, ?_, ?_, hfit⟩
    · exact (Nat.mod_le _ _).trans (by omega)
    · rw [hf]
      exact (Nat.mod_le _ _).trans (by omega)
    · rw [hf, nextOffset_spelled he hbs ho (hfit.trans hmax)]
  have hlt : offset < a.size := by
    have : 0 < headerSize := by decide
    omega
  have hround : offset + bs.length + padLen 512 (offset + bs.length) < ulongSize := by
    simp only [padLen, objectMax, ulongSize] at *
    omega
  refine ⟨h, hview, ?_⟩
  simp only [readRound, if_pos hlt, hentry, htr]
  by_cases htrailer : e.IsTrailer
  · simp only [htrailer, decide_true, if_true, listAppend, listShift, List.dropLast_concat,
      Nat.mod_eq_of_lt hround]
  · simp only [htrailer, decide_false, if_false, listAppend]

/-- The reader goes through the entries up to the first one it takes for the trailer, wherever in
the memory it starts. Each entry comes with the bytes that stand for it. -/
theorem returns_archive (hmin : formatLength + headerSize ≤ a.size)
    (hsize : a.size ≤ a.raw.rest.length) {parts : List (Entry × Bytes)} {tr : Entry}
    (hs : List CpioHeader)
    (he : ∀ p ∈ parts, p.1.Spelled p.2 ∧ p.1.Readable ∧ ¬p.1.IsTrailer)
    (htr : tr.Spelled bs ∧ tr.Readable ∧ tr.IsTrailer)
    (hrest : a.raw.rest.drop offset = parts.flatMap Prod.snd ++ (bs ++ t)) (ho : 4 ∣ offset)
    (hfit : offset + (parts.flatMap Prod.snd ++ bs).length ≤ a.size) :
    ∃ hs', viewAll hs' = some (parts.map Prod.fst) ∧ Returns (readRound a) (offset, hs)
      (let o := offset + (parts.flatMap Prod.snd ++ bs).length
       .ok (o + padLen 512 o, hs ++ hs')) := by
  induction parts generalizing offset hs with
  | nil =>
    obtain ⟨h, -, hround⟩ := readRound_spelled htr.2.1 htr.1 hrest ho hfit hmin hsize hs
    refine ⟨[], rfl, returns_of_done ?_⟩
    rw [hround, if_pos htr.2.2, List.flatMap_nil, List.nil_append, List.append_nil]
  | cons p parts ih =>
    obtain ⟨hp, hread, hnot⟩ := he p (.head _)
    rw [List.flatMap_cons, List.append_assoc] at hrest
    simp only [List.flatMap_cons, List.append_assoc, List.length_append] at hfit
    obtain ⟨h, hview, hround⟩ := readRound_spelled hread hp hrest ho (by omega) hmin hsize hs
    have hrest' : a.raw.rest.drop (offset + p.2.length) = parts.flatMap Prod.snd ++ (bs ++ t) := by
      rw [← List.drop_drop, hrest, List.drop_left]
    have ho' : 4 ∣ offset + p.2.length :=
      Nat.dvd_add ho (Nat.dvd_of_mod_eq_zero (hread.length_mod hp))
    obtain ⟨hs', hviews, hret⟩ := ih (hs ++ [h]) (fun p' h' => he p' (.tail _ h')) hrest' ho'
      (by rw [List.length_append]; omega)
    have hend : offset + ((p :: parts).flatMap Prod.snd ++ bs).length =
        offset + p.2.length + (parts.flatMap Prod.snd ++ bs).length := by
      simp only [List.flatMap_cons, List.length_append]
      omega
    refine ⟨h :: hs', viewAll_cons.2 ⟨p.1, _, hview, hviews, rfl⟩, ?_⟩
    rw [List.append_assoc, List.singleton_append] at hret
    rw [hend]
    exact returns_of_again (hround.trans (if_neg hnot)) hret

theorem length_archive (es : List Entry) :
    (archive es).length = (es.flatMap layout ++ layout trailerEntry).length +
      padLen 512 (es.flatMap layout ++ layout trailerEntry).length := by
  rw [archive, List.length_append, List.length_replicate]

theorem le_length_archive (es : List Entry) : formatLength + headerSize ≤ (archive es).length := by
  have hmin : formatLength + headerSize ≤ (layout trailerEntry).length := by
    rw [encodable_trailerEntry.readable.length_eq encodable_trailerEntry.readable.spelled]
    decide
  rw [length_archive, List.length_append]
  omega

/-- The reader returns the entries of an archive. -/
theorem readCpio_archive {es : List Entry} (he : ∀ e ∈ es, e.Encodable ∧ ¬ e.IsTrailer)
    (hrest : a.raw.rest = archive es ++ t) (hfit : (archive es).length ≤ a.size)
    (hsize : a.size ≤ a.raw.rest.length) (hnil : a.headers = []) :
    ∃ hs, viewAll hs = some es ∧ ReadCpio a (.ok ((archive es).length, hs)) := by
  have hlen := length_archive es
  have hparts : (es.map fun e => (e, layout e)).flatMap Prod.snd = es.flatMap layout :=
    List.flatMap_map ..
  have hstart : a.raw.rest.drop 0 = (es.map fun e => (e, layout e)).flatMap Prod.snd ++
      (layout trailerEntry ++
        (zeros (padLen 512 (es.flatMap layout ++ layout trailerEntry).length) ++ t)) := by
    rw [List.drop_zero, hrest, archive, hparts]
    simp only [List.append_assoc]
  obtain ⟨hs, hviews, hret⟩ := returns_archive ((le_length_archive es).trans hfit) hsize []
    (List.forall_mem_map.2 fun e hmem =>
      ⟨(he e hmem).1.readable.spelled, (he e hmem).1.readable, (he e hmem).2⟩)
    ⟨encodable_trailerEntry.readable.spelled, encodable_trailerEntry.readable,
      isTrailer_trailerEntry⟩ hstart (Nat.dvd_zero 4) (by rw [hparts]; omega)
  rw [hparts, Nat.zero_add] at hret
  refine ⟨hs, by rw [hviews, List.map_map]; exact congrArg some (List.map_id es), ?_⟩
  rwa [ReadCpio, hnil, hlen]

end

end MakeInitrd.Initrd
