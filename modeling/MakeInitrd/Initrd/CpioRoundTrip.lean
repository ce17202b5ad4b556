import MakeInitrd.Initrd.CpioLayout

/-!
# Encoding and parsing

What the writer makes of well-formed headers is read back as the same entries
(`readCpio_writeArchive`). But an archive that the reader accepts need not survive `initrd-extract`,
since the writer prints lengths it does not write. `extract_faithful` says for which archives it
does.
-/

namespace MakeInitrd.Initrd

open CNum CMem Loop

/-- The archive `read_stream` hands to `read_cpio` for a whole uncompressed buffer. -/
def Cpio.ofBuffer (buf : Buffer) : Cpio where
  type := .archive
  compress := some .raw
  raw := ⟨buf, 0⟩
  size := buf.1.length
  headers := []

/-- The entries the writer is meant for. -/
structure Entry.WellFormed (e : Entry) : Prop where
  nameLen : e.nameLen = e.name.length + 1
  not_trailer : ¬ trailerName <+: e.name
  printable : e.Printable
  bodyless : bodyless e.mode → e.bodyLen = 0

variable {e : Entry}

theorem nAlign_length (h : e.name.length + 2 < ulongSize) :
    nAlign (e.name.length + 1) = e.paddedName.length := by
  rw [length_paddedName]
  simp only [nAlign, padLen, headerSize]
  rw [Nat.mod_eq_of_lt h]
  omega

theorem nAlign_nameLen (hp : e.Printable) (hn : e.nameLen = e.name.length + 1) :
    nAlign e.nameLen = e.paddedName.length := by
  have hsmall : e.nameLen < uintSize := hp _ (by simp [Fields.printed])
  rw [hn] at hsmall ⊢
  refine nAlign_length ?_
  simp only [uintSize, ulongSize] at *
  omega

theorem Entry.WellFormed.encodable (h : e.WellFormed) : e.Encodable where
  printable := h.printable
  nameLen_ne := by rw [h.nameLen]; exact Nat.succ_ne_zero _
  align := nAlign_nameLen h.printable h.nameLen
  bodyless := h.bodyless

theorem dvd_length_archive (es : List Entry) : 512 ∣ (archive es).length := by
  rw [length_archive]
  exact dvd_add_padLen (by decide) _

/-- Encoding then parsing is the identity. -/
theorem readCpio_writeArchive (hs : List CpioHeader) (es : List Entry)
    (hview : viewAll hs = some es) (hwf : ∀ e ∈ es, e.WellFormed) :
    ∃ out, writeArchive hs = some out ∧ 512 ∣ out.length ∧ ∀ hmax : out.length ≤ objectMax, ∃ hs',
        ReadCpio (Cpio.ofBuffer ⟨out, hmax⟩) (.ok (out.length, hs')) ∧ viewAll hs' = some es := by
  refine ⟨archive es, writeArchive_eq hview fun e he => (hwf e he).encodable, dvd_length_archive es,
    fun hmax => ?_⟩
  have he : ∀ e ∈ es, e.Encodable ∧ ¬ e.IsTrailer := fun e he =>
    ⟨(hwf e he).encodable, fun htr => (hwf e he).not_trailer htr.2⟩
  obtain ⟨hs', hviews, hread⟩ := readCpio_archive (a := Cpio.ofBuffer ⟨archive es, hmax⟩) he
    (List.append_nil _).symm (Nat.le_refl _) (Nat.le_refl _) rfl
  exact ⟨hs', hread, hviews⟩

/-- A header of a directory or a file named by one letter. -/
def sampleFields (mode nlink bodyLen : Nat) : Fields where
  ino := 11
  mode := mode
  uid := 0
  gid := 0
  nlink := nlink
  mtime := 1700000000
  bodyLen := bodyLen
  major := 8
  minor := 1
  rmajor := 0
  rminor := 0
  rdev := 0
  rdev_eq := newEncodeDev_zero
  nameLen := 2

theorem length_nil_le : ([] : Bytes).length ≤ objectMax := by decide

theorem length_sampleName_le : ([102, 0] : Bytes).length ≤ objectMax := by decide

theorem nul_notMem_sampleName : (0 : UInt8) ∉ ([102] : Bytes) := by decide

/-- The directory `d` and the file `f` with the body `hi\n`, each with its name and its body in a
buffer of its own. -/
def sampleHeaders : List CpioHeader :=
  [{ sampleFields 0o040755 2 0 with
      name := ⟨⟨[100, 0], by decide⟩, 0⟩
      body := ⟨⟨[], length_nil_le⟩, 0⟩ },
    { sampleFields 0o100644 1 3 with
      name := ⟨⟨[102, 0], length_sampleName_le⟩, 0⟩
      body := ⟨⟨[104, 105, 10], by decide⟩, 0⟩ }]

def sampleEntries : List Entry :=
  [{ sampleFields 0o040755 2 0 with
      name := [100]
      body := []
      name_nul := by decide
      body_length := List.length_nil },
    { sampleFields 0o100644 1 3 with
      name := [102]
      body := [104, 105, 10]
      name_nul := nul_notMem_sampleName
      body_length := rfl }]

theorem sampleEntries_wellFormed : ∀ e ∈ sampleEntries, e.WellFormed := by
  intro e he
  simp only [sampleEntries, List.mem_cons, List.not_mem_nil, or_false] at he
  rcases he with rfl | rfl
  · exact ⟨by decide, by decide, by decide, by decide⟩
  · exact ⟨by decide, by decide, by decide, by decide⟩

theorem readCpio_writeArchive_sample :
    viewAll sampleHeaders = some sampleEntries ∧ (∀ e ∈ sampleEntries, e.WellFormed) ∧
    ∃ out, writeArchive sampleHeaders = some out ∧ 512 ∣ out.length ∧ ∀ hmax : out.length ≤
      objectMax, ∃ hs',
        ReadCpio (Cpio.ofBuffer ⟨out, hmax⟩) (.ok (out.length, hs')) ∧ viewAll hs' =
          some sampleEntries :=
  ⟨by decide, sampleEntries_wellFormed,
    readCpio_writeArchive sampleHeaders sampleEntries (by decide) sampleEntries_wellFormed⟩

/-! ## Parsing then encoding -/

/-- The archive has an entry at an offset: the header there is not the trailer. -/
structure Cpio.HasEntry (a : Cpio) (offset : Nat) (h : CpioHeader) : Prop where
  lt_size : offset < a.size
  header : parseHeader (a.raw.add offset) = some h
  not_trailer : isTrailer h = some false

/-- The offsets at which the archive has its headers, each behind the entry before it. -/
inductive Cpio.Visits (a : Cpio) : Nat → Prop
  | start : a.Visits 0
  | next {offset : Nat} {h : CpioHeader} : a.Visits offset → a.HasEntry offset h →
      a.Visits (nextOffset offset h.toFields)

/-- A header the writer can repeat: its numbers fit their fields, the name length it prints stands
for as many bytes as the name it writes, and a body it does not write is empty. -/
structure CpioHeader.Faithful (h : CpioHeader) : Prop where
  printable : h.Printable
  align : ∃ name, h.name.cstr? = some name ∧ nAlign h.nameLen = nAlign (name.length + 1)
  bodyless : bodyless h.mode → h.bodyLen = 0

/-- `initrd-extract` on an image that is one archive with these headers: the output is read back,
and the headers found there show what the first ones show. -/
def ExtractsSame (raw : Buffer) (hs : List CpioHeader) : Prop :=
  ∃ out, extract 0 [{ Cpio.ofBuffer raw with headers := hs }] = some out ∧ ∀ hmax : out.length ≤
    objectMax, ∃ n' hs' es,
      ReadCpio (Cpio.ofBuffer ⟨out, hmax⟩) (.ok (n', hs')) ∧ viewAll hs = some es ∧
        viewAll hs' = some es

variable {a : Cpio} {h : CpioHeader} {offset offset' : Nat}

/-- Where the pointers of an accepted header point, as long as no length carries an offset round. -/
theorem readEntry_rest (hok : readEntry a offset = .ok (h, offset')) (hlt : offset < a.size)
    (hsize : a.size ≤ a.raw.rest.length) (hname : h.nameLen < uintSize)
    (hbody : h.bodyLen < uintSize) :
    h.name.rest = a.raw.rest.drop (offset + headerSize) ∧
    h.body.rest = a.raw.rest.drop (offset + headerSize + nAlign h.nameLen) ∧
    offset + headerSize + nAlign h.nameLen + h.bodyLen ≤ a.raw.rest.length := by
  obtain ⟨-, -, -, hparse, -, hend, -, -⟩ := readEntry_eq_ok.1 hok
  have hmax := a.raw.length_rest_le
  have hfit : offset + headerSize + nAlign h.nameLen + h.bodyLen ≤ a.raw.rest.length := by
    rw [Nat.mod_eq_of_lt] at hend
    · exact hend.trans hsize
    · simp only [nAlign, headerSize, objectMax, uintSize, ulongSize] at *
      omega
  have hpos : 0 < nAlign h.nameLen := Nat.succ_pos _
  have hptr : (a.raw.add offset).rest = a.raw.rest.drop offset :=
    Ptr.rest_add (by omega) (List.ne_nil_of_length_pos (by omega))
  have hhdr := Ptr.rest_add_drop (n := headerSize) hptr (by omega) (by omega)
  obtain ⟨hnamePtr, hbodyPtr⟩ := parseHeader_ptrs hparse
  exact ⟨hnamePtr ▸ hhdr, hbodyPtr ▸ Ptr.rest_add_drop hhdr (by omega) (by omega), hfit⟩

/-- An accepted header that is faithful shows an entry that can be encoded, and the reader takes it
for the trailer exactly when it will do so again. -/
theorem CpioHeader.Faithful.view (hf : h.Faithful) (hok : readEntry a offset = .ok (h, offset'))
    (hlt : offset < a.size) (hsize : a.size ≤ a.raw.rest.length) :
    ∃ e, h.view = some e ∧ e.Encodable ∧ isTrailer h = some (decide e.IsTrailer) := by
  have hnameLen : h.nameLen < uintSize := hf.printable _ (by simp [Fields.printed])
  have hbodyLen : h.bodyLen < uintSize := hf.printable _ (by simp [Fields.printed])
  obtain ⟨hname, hbody, hfit⟩ := readEntry_rest hok hlt hsize hnameLen hbodyLen
  obtain ⟨name, hcstr, halign⟩ := hf.align
  obtain ⟨hnul, t, ht⟩ := Ptr.cstr?_eq_some.1 hcstr
  have hbytes : h.body.bytes? h.bodyLen = some (h.body.rest.take h.bodyLen) :=
    Ptr.bytes?_of_le (by rw [hbody, List.length_drop]; omega)
  let e : Entry :=
    { h.toFields with
      name := name
      body := h.body.rest.take h.bodyLen
      name_nul := hnul
      body_length := (Ptr.bytes?_inv hbytes).1 }
  have hshort : name.length + 2 < ulongSize := by
    have hmax := h.name.mem.2
    have hlen : h.name.rest.length = name.length + (t.length + 1) := by
      rw [ht, List.length_append, List.length_cons]
    rw [h.name.length_rest] at hlen
    simp only [objectMax, ulongSize] at *
    omega
  have hroom (hlen : trailerName.length + 1 ≤ e.nameLen) :
      trailerName.length ≤ h.name.rest.length := by
    have hskip : trailerName.length ≤ nAlign h.nameLen :=
      length_trailerName_le_nAlign hlen hnameLen
    rw [hname, List.length_drop]
    omega
  refine ⟨e, CpioHeader.view_eq_some.2 ⟨rfl, hcstr, hbytes⟩, ?_, isTrailer_eq rfl hcstr hroom⟩
  exact
    { printable := hf.printable
      nameLen_ne := (readEntry_eq_ok.1 hok).2.2.2.2.1
      align := halign.trans (nAlign_length (e := e) hshort)
      bodyless := hf.bodyless }

theorem readCpio_view {n : Nat} {hs : List CpioHeader} (hread : ReadCpio a (.ok (n, hs)))
    (hnil : a.headers = []) (hsize : a.size ≤ a.raw.rest.length)
    (hfaith : ∀ offset h, a.Visits offset → a.HasEntry offset h → h.Faithful) :
    ∃ es, viewAll hs = some es ∧ ∀ e ∈ es, e.Encodable ∧ ¬ e.IsTrailer := by
  let Shown (hs : List CpioHeader) : Prop :=
    ∃ es, viewAll hs = some es ∧ ∀ e ∈ es, e.Encodable ∧ ¬ e.IsTrailer
  -- the loop keeps: its offset is one of the archive's, and its headers can be encoded
  refine hread.rule (I := fun st => a.Visits st.1 ∧ Shown st.2)
    (Q := fun r => ∀ n hs, r = .ok (n, hs) → Shown hs) ?_ ?_ ?_ n hs rfl
  · rw [hnil]
    exact ⟨.start, [], rfl, nofun⟩
  · rintro ⟨o, hs⟩ st' ⟨hvis, es, hes, henc⟩ hround
    obtain ⟨hlt, h, o', hok, htr, rfl⟩ := readRound_again hround
    obtain ⟨-, -, -, hparse, -, -, rfl, -⟩ := readEntry_eq_ok.1 hok
    have hentry : a.HasEntry o h := ⟨hlt, hparse, htr⟩
    obtain ⟨e, hview, he, htr'⟩ := (hfaith o h hvis hentry).view hok hlt hsize
    have hnot : ¬ e.IsTrailer := by simpa [htr] using htr'
    have hlast : viewAll [h] = some [e] := viewAll_cons.2 ⟨e, [], hview, rfl, rfl⟩
    refine ⟨hvis.next hentry, es ++ [e], viewAll_append hes hlast, fun e' he' => ?_⟩
    rcases List.mem_append.1 he' with hmem | hmem
    · exact henc e' hmem
    · rw [List.mem_singleton.1 hmem]
      exact ⟨he, hnot⟩
  · rintro ⟨o, hs⟩ r ⟨hvis, hshown⟩ hround n hs' rfl
    rw [readRound_done hround]
    exact hshown

/-- An archive that the reader accepts and whose headers are all faithful is extracted as it is. -/
theorem extract_faithful (raw : Buffer) (n : Nat) (hs : List CpioHeader)
    (hread : ReadCpio (Cpio.ofBuffer raw) (.ok (n, hs)))
    (hfaith : ∀ offset h, (Cpio.ofBuffer raw).Visits offset →
      (Cpio.ofBuffer raw).HasEntry offset h → h.Faithful) : ExtractsSame raw hs := by
  obtain ⟨es, hviews, he⟩ := readCpio_view hread rfl (Nat.le_refl _) hfaith
  refine ⟨archive es, ?_, fun hmax => ?_⟩
  · rw [extract_singleton rfl]
    exact writeArchive_eq hviews fun e h => (he e h).1
  · obtain ⟨hs', hviews', hread'⟩ := readCpio_archive (a := Cpio.ofBuffer ⟨archive es, hmax⟩) he
      (List.append_nil _).symm (Nat.le_refl _) (Nat.le_refl _) rfl
    exact ⟨_, hs', es, hread', hviews, hviews'⟩

/-- An archive of one entry whose name is one letter, followed by four bytes. -/
def sampleImage (f : Fields) (name : UInt8) (body : Bytes) : Bytes :=
  headerText f ++ [name, 0] ++ body ++ layout trailerEntry ++ zeros 272

/-- The file `f` with the body `hi\n`. -/
def fileImage : Buffer :=
  ⟨sampleImage (sampleFields 0o100644 1 3) 102 [104, 105, 10, 0], by decide +kernel⟩

/-- The header found in `fileImage`. -/
def fileHeader : CpioHeader :=
  { sampleFields 0o100644 1 3 with
    name := ⟨fileImage, 110⟩
    body := ⟨fileImage, 112⟩ }

theorem fileHeader_faithful : fileHeader.Faithful where
  printable := by decide
  align := ⟨[102], by decide +kernel, by decide⟩
  bodyless := by decide

theorem fileImage_entry {offset : Nat} {h : CpioHeader}
    (hvis : (Cpio.ofBuffer fileImage).Visits offset)
    (hentry : (Cpio.ofBuffer fileImage).HasEntry offset h) : offset = 0 ∧ h = fileHeader := by
  have hfirst : parseHeader ((Cpio.ofBuffer fileImage).raw.add 0) = some fileHeader := by
    decide +kernel
  have hsecond :
      (parseHeader ((Cpio.ofBuffer fileImage).raw.add 116)).bind isTrailer = some true := by
    decide +kernel
  have hnext : nextOffset 0 fileHeader.toFields = 116 := by decide
  induction hvis generalizing h with
  | start => exact ⟨rfl, Option.some.inj (hentry.header.symm.trans hfirst)⟩
  | next _ hprev ih =>
    obtain ⟨rfl, rfl⟩ := ih hprev
    rw [← hnext, hentry.header, Option.bind_some, hentry.not_trailer] at hsecond
    cases hsecond

theorem extract_faithful_fileImage : ReadCpio (Cpio.ofBuffer fileImage) (.ok (512, [fileHeader])) ∧
      (∀ offset h, (Cpio.ofBuffer fileImage).Visits offset →
        (Cpio.ofBuffer fileImage).HasEntry offset h → h.Faithful) ∧
      ExtractsSame fileImage [fileHeader] := by
  have hread : ReadCpio (Cpio.ofBuffer fileImage) (.ok (512, [fileHeader])) :=
    ⟨2, by decide +kernel⟩
  have hfaith : ∀ offset h, (Cpio.ofBuffer fileImage).Visits offset →
      (Cpio.ofBuffer fileImage).HasEntry offset h → h.Faithful := fun offset h hvis hentry =>
    (fileImage_entry hvis hentry).2 ▸ fileHeader_faithful
  exact ⟨hread, hfaith, extract_faithful fileImage 512 [fileHeader] hread hfaith⟩

/-- The directory `d` with the body `oops`. -/
def dirImage : Buffer :=
  ⟨sampleImage (sampleFields 0o040755 2 4) 100 [111, 111, 112, 115], by decide +kernel⟩

/-- The header found in `dirImage`. -/
def dirHeader : CpioHeader :=
  { sampleFields 0o040755 2 4 with
    name := ⟨dirImage, 110⟩
    body := ⟨dirImage, 112⟩ }

/-- What `initrd-extract` writes for `dirImage`: the header still tells of four bytes of body. -/
def dirOutput : Bytes :=
  headerText (sampleFields 0o040755 2 4) ++ [100, 0] ++ layout trailerEntry ++ zeros 276

/-- A directory with a body is accepted, but what is written for it cannot be read: the reader skips
a body the writer left out, and misses the next header. -/
theorem not_extract_faithful :
    ¬ ∀ raw n hs, ReadCpio (Cpio.ofBuffer raw) (.ok (n, hs)) → ExtractsSame raw hs := by
  intro hall
  obtain ⟨out, hout, hsame⟩ := hall dirImage 512 [dirHeader] ⟨2, by decide +kernel⟩
  have heq : out = dirOutput := Option.some.inj (hout.symm.trans (by decide +kernel))
  subst heq
  obtain ⟨n, hs, -, hread, -⟩ := hsame (by decide +kernel)
  have herr : ReadCpio (Cpio.ofBuffer ⟨dirOutput, by decide +kernel⟩) (.error .noMagic) :=
    ⟨2, by decide +kernel⟩
  cases hread.unique herr

end MakeInitrd.Initrd
