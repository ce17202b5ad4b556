import MakeInitrd.Initrd.CpioRoundTrip
import MakeInitrd.Initrd.Parse

/-!
# What `read_stream` finds in an image

`Segments` is the grammar of images: a concatenation of archives and of compressed streams whose
content is again such a concatenation. `readStream_image` says that `read_stream` finds exactly
these parts, each archive with its innermost compression, and the bootconfig behind them.
-/

namespace MakeInitrd.Initrd

open CNum CMem Loop List

/-- What a `struct cpio` stands for. -/
inductive Part where
  | archive (label : Label) (entries : List Entry)
  | bootconfig (payload : Bytes)
deriving DecidableEq

/-- What a `struct cpio` shows. -/
def Cpio.part (c : Cpio) : Option Part :=
  match c.type with
  | .archive => do
    let label ← c.compress
    let entries ← viewAll c.headers
    some (.archive label entries)
  | .bootconfig => (c.raw.bytes? c.size).map .bootconfig
  | .unknown => none

/-- What the list `res->cpios` shows. -/
def parts (cpios : List Cpio) : Option (List Part) :=
  cpios.mapM Cpio.part

/-- The bytes are a concatenation of archives and of compressed streams, and these are its parts. A
compressed stream begins with the magic of a format that can be unpacked; its decompressor returns
its exact content and its exact length, whatever follows it. -/
inductive Segments (env : Env) : Label → Bytes → List Part → Prop
  | nil {label : Label} : Segments env label [] []
  | archive {label : Label} {es : List Entry} {bs : Bytes} {ps : List Part} :
      (∀ e ∈ es, e.WellFormed) → Segments env label bs ps →
      Segments env label (archive es ++ bs) (.archive label es :: ps)
  | compressed {label : Label} {cf : CompressFormat} {method : Method} {stream : Bytes}
      {content : Buffer} {bs : Bytes} {ps ps' : List Part} :
      formatOf env.config (stream.take 2) = some cf → cf.decompressor = some method →
      (∀ rest, env.decompress method (stream ++ rest) = some (content, stream.length)) →
      Segments env cf.name content.1 ps → Segments env label bs ps' →
      Segments env label (stream ++ bs) (ps ++ ps')

/-! ## One segment -/

section

variable {env : Env} {compress name : Label} {addr : Ptr} {size offset readed n m : Nat}
variable {content : Buffer} {cpios cpios' : List Cpio} {r : Except StreamError (List Cpio)}

theorem streamLoop_of_unpack (hstep : streamStep env addr size offset = .unpack name content readed)
    (hinner : streamLoop env n name ⟨content, 0⟩ content.1.length 0 cpios = some (.ok cpios'))
    (hlt : offset + readed < ulongSize)
    (hrest : streamLoop env m compress addr size (offset + readed) cpios' = some r) :
    ∃ fuel, streamLoop env fuel compress addr size offset cpios = some r := by
  refine ⟨max n m + 1, ?_⟩
  rw [streamLoop, hstep]
  dsimp only
  rw [streamLoop_mono (Nat.le_max_left n m) hinner]
  dsimp only
  rw [Nat.mod_eq_of_lt hlt]
  exact streamLoop_mono (Nat.le_max_right n m) hrest

theorem streamLoop_of_archive {k : Nat} {hs : List CpioHeader}
    (hstep : streamStep env addr size offset = .archive)
    (hread : ReadCpio (cpioAt compress addr size offset) (.ok (k, hs)))
    (hlt : offset + k < ulongSize)
    (hrest : streamLoop env m compress addr size (offset + k)
      (cpios ++ [{ cpioAt compress addr size offset with headers := hs }]) = some r) :
    ∃ fuel, streamLoop env fuel compress addr size offset cpios = some r := by
  obtain ⟨n, hn⟩ := hread
  refine ⟨max n m + 1, ?_⟩
  rw [streamLoop, hstep]
  dsimp only
  rw [run_mono hn (Nat.le_max_left n m)]
  dsimp only
  rw [Nat.mod_eq_of_lt hlt]
  exact streamLoop_mono (Nat.le_max_right n m) hrest

theorem length_magic (c : Config) : ∀ cf ∈ compressedFormats c, cf.magic.length = 2 := by
  obtain ⟨g, b, l, z⟩ := c
  cases g <;> cases b <;> cases l <;> cases z <;> decide

theorem formatOf_newAscii (c : Config) : formatOf c (newAscii.take 2) = none := by
  obtain ⟨g, b, l, z⟩ := c
  cases g <;> cases b <;> cases l <;> cases z <;> decide

variable {bs t : Bytes}

theorem decompressMethod_of_rest {p : Ptr} {len : Nat} (c : Config) (hp : p.rest = bs ++ t)
    (hbs : 2 ≤ bs.length) (hlen : bs.length ≤ len) :
    decompressMethod c p len = some (formatOf c (bs.take 2)) := by
  have hle : 2 ≤ p.rest.length := by
    rw [hp, length_append]
    omega
  rw [decompressMethod, if_neg (by omega), Ptr.bytes?_of_le hle, hp, take_append_of_le_length hbs,
    Option.map_some]

theorem newAscii_prefix_archive (es : List Entry) : newAscii <+: archive es := by
  have hlayout (e : Entry) : newAscii <+: layout e := by
    rw [layout, headerText, append_assoc]
    exact prefix_append _ _
  have hfirst : newAscii <+: es.flatMap layout ++ layout trailerEntry := by
    cases es with
    | nil => exact hlayout trailerEntry
    | cons e es =>
      rw [flatMap_cons, append_assoc]
      exact (hlayout e).trans (prefix_append _ _)
  exact hfirst.trans (prefix_append _ _)

theorem streamStep_archive {es : List Entry} (hp : (addr.add offset).rest = archive es ++ t)
    (hlen : offset + (archive es).length ≤ size) :
    streamStep env addr size offset = .archive := by
  obtain ⟨u, hu⟩ := newAscii_prefix_archive es
  have htwo : 2 ≤ (archive es).length := Nat.le_trans (by decide) (le_length_archive es)
  have hnone : formatOf env.config ((archive es).take 2) = none := by
    rw [← hu, take_append_of_le_length (by decide), formatOf_newAscii]
  rw [streamStep, if_neg (by omega), decompressMethod_of_rest _ hp htwo (by omega), hnone]
  rfl

theorem two_le_length {c : Config} {cf : CompressFormat} {stream : Bytes}
    (hcf : formatOf c (stream.take 2) = some cf) : 2 ≤ stream.length := by
  have hmagic : cf.magic = stream.take 2 := by simpa using find?_some hcf
  have hlen := length_magic c cf (mem_of_find?_eq_some hcf)
  rw [hmagic, length_take] at hlen
  omega

theorem streamStep_compressed {cf : CompressFormat} {method : Method} {stream : Bytes}
    (hcf : formatOf env.config (stream.take 2) = some cf) (hmethod : cf.decompressor = some method)
    (hdec : ∀ rest, env.decompress method (stream ++ rest) = some (content, stream.length))
    (hp : (addr.add offset).rest = stream ++ (bs ++ t))
    (hsize : size = offset + (stream ++ bs).length) :
    streamStep env addr size offset = .unpack cf.name content stream.length := by
  have htwo := two_le_length hcf
  have hlen : size - offset = (stream ++ bs).length := by omega
  have hin : (addr.add offset).bytes? (size - offset) = some (stream ++ bs) := by
    rw [hlen]
    exact Ptr.bytes?_of_rest (by rw [hp, append_assoc])
  rw [length_append] at hsize
  rw [streamStep, if_neg (by omega), decompressMethod_of_rest _ hp htwo (by omega), hcf]
  simp only [Option.bind_some, hmethod, Option.map_some, hin, hdec]

end

theorem parts_append {cs cs' : List Cpio} {ps ps' : List Part} (h : parts cs = some ps)
    (h' : parts cs' = some ps') : parts (cs ++ cs') = some (ps ++ ps') := by
  rw [parts] at *
  simp [mapM_append, h, h']

/-- The loop of `read_stream` finds the parts of a concatenation of segments, wherever it stands. -/
theorem streamLoop_segments {env : Env} {label : Label} {bs : Bytes} {ps : List Part}
    (h : Segments env label bs ps) {addr : Ptr} {offset size : Nat} {t : Bytes}
    (hrest : addr.rest.drop offset = bs ++ t) (hsize : size = offset + bs.length)
    (hle : size ≤ addr.rest.length) (cpios : List Cpio) :
    ∃ fuel cs, streamLoop env fuel label addr size offset cpios = some (.ok (cpios ++ cs)) ∧
      parts cs = some ps := by
  induction h generalizing addr offset size t cpios with
  | nil =>
    refine ⟨1, [], ?_, rfl⟩
    rw [streamLoop, streamStep, if_pos (by simpa using hsize.le), append_nil]
  | @archive label es bs ps hwf hsegs ih =>
    have hpos : 0 < (archive es).length := Nat.lt_of_lt_of_le (by decide) (le_length_archive es)
    rw [append_assoc] at hrest
    rw [length_append] at hsize
    have hp : (addr.add offset).rest = archive es ++ (bs ++ t) := by
      rw [Ptr.rest_add (by omega) (ne_nil_of_length_pos (by omega)), hrest]
    have hcsize : (cpioAt label addr size offset).size = (archive es).length + bs.length := by
      rw [cpioAt, hsize, Nat.add_sub_cancel_left]
    obtain ⟨hs, hviews, hread⟩ := readCpio_archive (a := cpioAt label addr size offset)
      (fun e he => ⟨(hwf e he).encodable, fun htr => (hwf e he).not_trailer htr.2⟩) hp
      (by omega) (by rw [hcsize, cpioAt, hp, length_append, length_append]; omega) rfl
    let cpio : Cpio := { cpioAt label addr size offset with headers := hs }
    have hrest' : addr.rest.drop (offset + (archive es).length) = bs ++ t := by
      rw [← drop_drop, hrest, drop_left]
    obtain ⟨m, cs, hloop, hparts⟩ := ih hrest' (by omega) hle (cpios ++ [cpio])
    obtain ⟨fuel, hfuel⟩ := streamLoop_of_archive (streamStep_archive hp (by omega)) hread
      (Nat.lt_of_le_of_lt (by omega) addr.length_rest_lt) hloop
    have hpart : parts [cpio] = some [.archive label es] := by
      simp [parts, Cpio.part, cpio, cpioAt, hviews]
    exact ⟨fuel, cpio :: cs, by rw [hfuel, append_assoc]; rfl, parts_append hpart hparts⟩
  | @compressed label cf method stream content bs ps ps' hcf hmethod hdec hsegs hsegs' ih ih' =>
    have htwo := two_le_length hcf
    have hlen := hsize
    rw [append_assoc] at hrest
    rw [length_append] at hlen
    have hp : (addr.add offset).rest = stream ++ (bs ++ t) := by
      rw [Ptr.rest_add (by omega) (ne_nil_of_length_pos (by omega)), hrest]
    -- the content of the stream, in a buffer of its own
    have hcontent : (Ptr.mk content 0).rest.drop 0 = content.1 ++ [] := (append_nil _).symm
    obtain ⟨n, cs, hinner, hparts⟩ :=
      ih hcontent (Nat.zero_add _).symm (Nat.le_refl content.1.length) cpios
    -- what follows the stream
    have hrest' : addr.rest.drop (offset + stream.length) = bs ++ t := by
      rw [← drop_drop, hrest, drop_left]
    obtain ⟨m, cs', hloop, hparts'⟩ := ih' hrest' (by omega) hle (cpios ++ cs)
    obtain ⟨fuel, hfuel⟩ := streamLoop_of_unpack (streamStep_compressed hcf hmethod hdec hp hsize)
      hinner (Nat.lt_of_le_of_lt (by omega) addr.length_rest_lt) hloop
    exact ⟨fuel, cs ++ cs', by rw [hfuel, append_assoc], parts_append hparts hparts'⟩

/-! ## The bootconfig at the end -/

/-- A bootconfig as it stands behind an image. -/
structure Bootconfig where
  payload : Bytes
  checksum : Bytes
  padding : Bytes
  payload_lt : payload.length < uintSize
  checksum_length : checksum.length = 4
  padding_le : padding.length ≤ 3

/-- A number in four bytes, least significant first. -/
def le32Bytes (n : Nat) : Bytes :=
  [n % 256, n / 256 % 256, n / 65536 % 256, n / 16777216 % 256].map UInt8.ofNat

theorem le32_le32Bytes {n : Nat} (h : n < uintSize) : le32 (le32Bytes n) = n := by
  have hbyte (k : Nat) : (UInt8.ofNat (k % 256)).toNat = k % 256 :=
    UInt8.toNat_ofNat_of_lt' (Nat.mod_lt _ (by decide))
  simp only [le32, le32Bytes, map_cons, map_nil, foldr_cons, foldr_nil, hbyte]
  rw [uintSize] at h
  omega

def Bootconfig.bytes (b : Bootconfig) : Bytes :=
  b.payload ++ (le32Bytes b.payload.length ++ (b.checksum ++ (bootconfigMagic ++ b.padding)))

/-- What is appended to the parts of an image. -/
def Bootconfig.parts (b : Option Bootconfig) : List Part :=
  (b.map fun b => Part.bootconfig b.payload).toList

/-- The twelve bytes at a position of an image. -/
def window (image : Bytes) (k : Nat) : Bytes :=
  (image.drop k).take bootconfigMagic.length

section

variable {image : Buffer} {k n : Nat}

theorem bytes?_window (h : k + bootconfigMagic.length ≤ image.1.length) :
    (Ptr.mk image k).bytes? bootconfigMagic.length = some (window image.1 k) :=
  if_pos (.inr h)

theorem findMagic_of_ne (hk : n = 0 ∨ 0 < k) (hlen : k + bootconfigMagic.length ≤ image.1.length)
    (hne : window image.1 k ≠ bootconfigMagic) :
    findMagic (n + 1) ⟨image, k⟩ = findMagic n ⟨image, k - 1⟩ := by
  rw [findMagic, bytes?_window hlen]
  dsimp only
  rw [if_neg hne]
  cases n with
  | zero => rw [findMagic, findMagic]
  | succ n =>
    have hback : (Ptr.mk image k).sub 1 = ⟨image, k - 1⟩ :=
      Ptr.sub_mk (by omega)
    rw [hback]

theorem findMagic_eq_none (hk : n ≤ k + 1) (hlen : k + bootconfigMagic.length ≤ image.1.length)
    (hno : ∀ i < n, window image.1 (k - i) ≠ bootconfigMagic) :
    findMagic n ⟨image, k⟩ = .ok none := by
  induction n generalizing k with
  | zero => rfl
  | succ n ih =>
    rw [findMagic_of_ne (by omega) hlen (hno 0 (Nat.succ_pos n))]
    refine ih (by omega) (by omega) fun i hi => ?_
    rw [Nat.sub_sub, Nat.add_comm 1]
    exact hno (i + 1) (Nat.succ_lt_succ hi)

theorem findMagic_eq_some {j : Nat} (hj : j < n) (hk : j ≤ k)
    (hlen : k + bootconfigMagic.length ≤ image.1.length)
    (hno : ∀ i < j, window image.1 (k - i) ≠ bootconfigMagic)
    (hyes : window image.1 (k - j) = bootconfigMagic) :
    findMagic n ⟨image, k⟩ = .ok (some ⟨image, k - j⟩) := by
  induction j generalizing k n with
  | zero =>
    obtain ⟨n, rfl⟩ := Nat.exists_eq_add_of_le' hj
    rw [findMagic, bytes?_window hlen]
    exact if_pos hyes
  | succ j ih =>
    obtain ⟨n, rfl⟩ := Nat.exists_eq_add_of_le' (Nat.lt_of_le_of_lt (Nat.zero_le _) hj)
    have hback (i : Nat) : k - 1 - i = k - (i + 1) := by omega
    rw [findMagic_of_ne (by omega) hlen (hno 0 (Nat.succ_pos j)), ← hback j]
    refine ih (by omega) (by omega) (by omega) (fun i hi => ?_) (hback j ▸ hyes)
    rw [hback]
    exact hno (i + 1) (Nat.succ_lt_succ hi)

end

/-- No window that overlaps the magic from behind is the magic, which has its first byte once. -/
theorem window_ne_magic {pre pad : Bytes} {d : Nat} (hd : 0 < d) (hd' : d ≤ 3) :
    window (pre ++ (bootconfigMagic ++ pad)) (pre.length + d) ≠ bootconfigMagic := by
  intro h
  rw [window, ← drop_drop, drop_left] at h
  have hhead := congrArg head? h
  interval_cases d <;> simp [bootconfigMagic] at hhead

section

variable {image : Buffer} {bs : Bytes} {b : Bootconfig}

theorem image_split (h : image.1 = bs ++ b.bytes) :
    image.1 = (bs ++ (b.payload ++ (le32Bytes b.payload.length ++ b.checksum))) ++
      (bootconfigMagic ++ b.padding) := by
  rw [h, Bootconfig.bytes]
  simp only [append_assoc]

theorem length_image (h : image.1 = bs ++ b.bytes) :
    image.1.length = bs.length + b.payload.length + 8 + bootconfigMagic.length +
      b.padding.length := by
  have hle : (le32Bytes b.payload.length).length = 4 := rfl
  rw [image_split h]
  simp only [length_append, b.checksum_length, hle]
  omega

theorem findMagic_bootconfig (h : image.1 = bs ++ b.bytes) :
    findMagic 4 ⟨image, image.1.length - bootconfigMagic.length⟩ =
      .ok (some ⟨image, bs.length + b.payload.length + 8⟩) := by
  have hlen := length_image h
  have hsplit := image_split h
  have hpad := b.padding_le
  have htwelve : bootconfigMagic.length = 12 := rfl
  generalize hpre : bs ++ (b.payload ++ (le32Bytes b.payload.length ++ b.checksum)) = pre at hsplit
  have hprelen : pre.length = bs.length + b.payload.length + 8 := by
    have := congrArg length hsplit
    simp only [length_append] at this
    omega
  -- the windows behind the magic overlap it, the one at its place is the magic
  have hno : ∀ i < b.padding.length,
      window image.1 (image.1.length - bootconfigMagic.length - i) ≠ bootconfigMagic := by
    intro i hi
    have hpos :
        image.1.length - bootconfigMagic.length - i = pre.length + (b.padding.length - i) := by
      omega
    rw [hpos, hsplit]
    exact window_ne_magic (by omega) (by omega)
  have hplace : image.1.length - bootconfigMagic.length - b.padding.length = pre.length := by omega
  have hyes : window image.1 pre.length = bootconfigMagic := by
    rw [window, hsplit, drop_left, take_left]
  rw [← hprelen, ← hplace]
  exact findMagic_eq_some (by omega) (by omega) (by omega) hno (hplace ▸ hyes)

theorem cutBootconfig_eq (h : image.1 = bs ++ b.bytes) :
    cutBootconfig ⟨image, 0⟩ image.1.length ⟨image, bs.length + b.payload.length + 8⟩ =
      .ok (⟨image, bs.length⟩, b.payload.length, bs.length) := by
  have hlen := length_image h
  have hhdr : (Ptr.mk image (bs.length + b.payload.length + 8)).sub 8 =
      ⟨image, bs.length + b.payload.length⟩ := Ptr.sub_mk (Nat.le_add_left _ _)
  have hpay :
      (Ptr.mk image (bs.length + b.payload.length)).sub b.payload.length = ⟨image, bs.length⟩ := by
    rw [Ptr.sub_mk (Nat.le_add_left _ _), Nat.add_sub_cancel]
  have hrest : (Ptr.mk image (bs.length + b.payload.length)).rest =
      le32Bytes b.payload.length ++ (b.checksum ++ (bootconfigMagic ++ b.padding)) := by
    rw [Ptr.rest, h, Bootconfig.bytes, ← append_assoc, ← length_append, drop_left]
  have hread : (Ptr.mk image (bs.length + b.payload.length)).bytes? 4 =
      some (le32Bytes b.payload.length) := Ptr.bytes?_of_rest hrest
  simp only [cutBootconfig, hhdr, hread, le32_le32Bytes b.payload_lt, hpay]
  rw [if_neg (by omega), Ptr.diff_mk]

end

/-- None of the four windows that end in the last four bytes of an image is the magic. -/
def NoMagicAtEnd (image : Bytes) : Prop :=
  bootconfigMagic.length + 3 ≤ image.length ∧
    ∀ i < 4, window image (image.length - bootconfigMagic.length - i) ≠ bootconfigMagic

/-- An image: segments, and a bootconfig if there is one. -/
def imageBytes (bs : Bytes) (b : Option Bootconfig) : Bytes :=
  bs ++ (b.map Bootconfig.bytes).getD []

/-- `read_stream` finds the parts of every segment in order, then the bootconfig. -/
theorem readStream_image (env : Env) (bs : Bytes) (ps : List Part) (b : Option Bootconfig)
    (image : Buffer) (hsegs : Segments env .raw bs ps) (himage : image.1 = imageBytes bs b)
    (hend : b = none → NoMagicAtEnd image.1) :
    ∃ fuel cs, readStream env fuel .raw ⟨image, 0⟩ image.1.length = some (.ok cs) ∧
      parts cs = some (ps ++ Bootconfig.parts b) := by
  have hstart (h : bootconfigMagic.length ≤ image.1.length) :
      ((Ptr.mk image 0).add image.1.length).sub bootconfigMagic.length =
        ⟨image, image.1.length - bootconfigMagic.length⟩ := by
    rw [Ptr.add_mk (Nat.zero_add _).le, Nat.zero_add, Ptr.sub_mk h]
  have hrest (t : Bytes) (h : image.1 = bs ++ t) : (Ptr.mk image 0).rest.drop 0 = bs ++ t := h
  cases b with
  | none =>
    obtain ⟨hlen, hno⟩ := hend rfl
    rw [imageBytes, Option.map_none, Option.getD_none] at himage
    have hsize : image.1.length = 0 + bs.length := by
      rw [himage, append_nil, Nat.zero_add]
    obtain ⟨fuel, cs, hloop, hparts⟩ :=
      streamLoop_segments hsegs (hrest [] himage) hsize (Nat.le_refl _) []
    refine ⟨fuel, cs, ?_, hparts.trans (congrArg some (append_nil ps).symm)⟩
    rw [readStream, hstart (by omega), findMagic_eq_none (by omega) (by omega) hno]
    exact hloop
  | some b =>
    have hlen := length_image himage
    obtain ⟨fuel, cs, hloop, hparts⟩ := streamLoop_segments hsegs (hrest b.bytes himage)
      (Nat.zero_add _).symm (show bs.length ≤ image.1.length by omega) []
    have hpayload : (Ptr.mk image bs.length).bytes? b.payload.length = some b.payload := by
      have hat : (Ptr.mk image bs.length).rest = b.bytes := by
        rw [Ptr.rest, himage, imageBytes, drop_left, Option.map_some, Option.getD_some]
      exact Ptr.bytes?_of_rest hat
    have hpart :
        parts [bootconfigCpio ⟨image, bs.length⟩ b.payload.length] =
          some [.bootconfig b.payload] := by
      simp [parts, Cpio.part, bootconfigCpio, hpayload]
    refine ⟨fuel, cs ++ [bootconfigCpio ⟨image, bs.length⟩ b.payload.length], ?_,
      parts_append hparts hpart⟩
    rw [readStream, hstart (by omega), findMagic_bootconfig himage]
    dsimp only
    rw [cutBootconfig_eq himage]
    dsimp only
    rw [hloop]
    rfl

/-- An archive without entries, as the content of a stream. -/
def emptyArchive : Buffer :=
  ⟨archive [], by decide +kernel⟩

/-- A gzip stream of `emptyArchive`: the header, one stored block, the CRC and the length. -/
def gzipStream : Bytes :=
  [0x1f, 0x8b, 8, 0, 0, 0, 0, 0, 0, 255] ++ [1, 0, 2, 255, 253] ++ archive [] ++
    [199, 34, 138, 195, 0, 2, 0, 0]

/-- A zstd stream of `emptyArchive`: a frame with one raw block, and a skippable frame whose 13
bytes of user data are the bootconfig magic and a zero. -/
def zstdStream : Bytes :=
  [0x28, 0xb5, 0x2f, 0xfd, 0x60, 0, 1] ++ [1, 16, 0] ++ archive [] ++
    [0x50, 0x2a, 0x4d, 0x18, 13, 0, 0, 0] ++ (bootconfigMagic ++ [0])

def decompressKnown (stream : Bytes) (content : Buffer) (bs : Bytes) : Option (Buffer × Nat) :=
  if stream <+: bs then some (content, stream.length) else none

theorem decompressKnown_append (stream : Bytes) (content : Buffer) (rest : Bytes) :
    decompressKnown stream content (stream ++ rest) = some (content, stream.length) :=
  if_pos (prefix_append _ _)

/-- A build with all libraries, and decompressors that know the two streams above. -/
def sampleEnv : Env where
  config := ⟨true, true, true, true⟩
  decompress
    | .gunzip => decompressKnown gzipStream emptyArchive
    | .unzstd => decompressKnown zstdStream emptyArchive
    | _ => fun _ => none

theorem segments_emptyArchive (label : Label) :
    Segments sampleEnv label emptyArchive.1 [.archive label []] := by
  have h : Segments sampleEnv label (archive [] ++ []) [.archive label []] := .archive nofun .nil
  rwa [append_nil] at h

theorem segments_gzip : Segments sampleEnv .raw (gzipStream ++ []) ([.archive .gzip []] ++ []) := by
  have hcf : formatOf sampleEnv.config (gzipStream.take 2) =
      some ⟨[0x1f, 0x8b], .gzip, some .gunzip⟩ := by decide +kernel
  have hmethod : sampleEnv.decompress .gunzip = decompressKnown gzipStream emptyArchive := rfl
  have hdec (rest : Bytes) : sampleEnv.decompress .gunzip (gzipStream ++ rest) =
      some (emptyArchive, gzipStream.length) := by
    rw [hmethod, decompressKnown_append]
  exact .compressed hcf rfl hdec (segments_emptyArchive .gzip) .nil

theorem segments_zstd : Segments sampleEnv .raw (zstdStream ++ []) ([.archive .zstd []] ++ []) := by
  have hcf : formatOf sampleEnv.config (zstdStream.take 2) =
      some ⟨[0x28, 0xb5], .zstd, some .unzstd⟩ := by decide +kernel
  have hmethod : sampleEnv.decompress .unzstd = decompressKnown zstdStream emptyArchive := rfl
  have hdec (rest : Bytes) : sampleEnv.decompress .unzstd (zstdStream ++ rest) =
      some (emptyArchive, zstdStream.length) := by
    rw [hmethod, decompressKnown_append]
  exact .compressed hcf rfl hdec (segments_emptyArchive .zstd) .nil

/-- The bootconfig `a=1`, padded by one byte. -/
def sampleBootconfig : Bootconfig where
  payload := [97, 61, 49]
  checksum := [207, 0, 0, 0]
  padding := [0]
  payload_lt := by decide
  checksum_length := rfl
  padding_le := by decide

def sampleInitrd : Buffer :=
  ⟨imageBytes (archive sampleEntries ++ (gzipStream ++ [])) (some sampleBootconfig),
    by decide +kernel⟩

theorem readStream_image_sample :
    Segments sampleEnv .raw (archive sampleEntries ++ (gzipStream ++ []))
      [.archive .raw sampleEntries, .archive .gzip []] ∧
    ∃ fuel cs, readStream sampleEnv fuel .raw ⟨sampleInitrd, 0⟩ sampleInitrd.1.length =
      some (.ok cs) ∧ parts cs = some ([.archive .raw sampleEntries, .archive .gzip []] ++
        Bootconfig.parts (some sampleBootconfig)) := by
  have hsegs : Segments sampleEnv .raw (archive sampleEntries ++ (gzipStream ++ []))
      [.archive .raw sampleEntries, .archive .gzip []] :=
    .archive sampleEntries_wellFormed segments_gzip
  exact ⟨hsegs, readStream_image sampleEnv _ _ (some sampleBootconfig) sampleInitrd hsegs rfl nofun⟩

def zstdInitrd : Buffer :=
  ⟨imageBytes (zstdStream ++ []) none, by decide +kernel⟩

/-- It is not enough that an image without a bootconfig does not end in the magic: the magic is also
looked for up to three bytes before the end, and what stands before it is then taken for the size of
a bootconfig. -/
theorem not_readStream_image : ¬ ∀ (env : Env) (bs : Bytes) (ps : List Part) (b : Option Bootconfig)
    (image : Buffer), Segments env .raw bs ps → bs ≠ [] → image.1 = imageBytes bs b →
    (b = none → ¬ bootconfigMagic <:+ image.1) →
    ∃ fuel cs, readStream env fuel .raw ⟨image, 0⟩ image.1.length = some (.ok cs) ∧
      parts cs = some (ps ++ Bootconfig.parts b) := by
  intro hall
  obtain ⟨fuel, cs, hread, -⟩ := hall sampleEnv (zstdStream ++ []) _ none zstdInitrd segments_zstd
    (by simp [zstdStream]) rfl (fun _ => by decide +kernel)
  have hmagic : findMagic 4 (((Ptr.mk zstdInitrd 0).add zstdInitrd.1.length).sub
      bootconfigMagic.length) = .ok (some ⟨zstdInitrd, 530⟩) := by decide +kernel
  have hcut : cutBootconfig ⟨zstdInitrd, 0⟩ zstdInitrd.1.length ⟨zstdInitrd, 530⟩ =
      .error .bootconfigSize := by decide +kernel
  rw [readStream, hmagic] at hread
  dsimp only at hread
  rw [hcut] at hread
  cases hread

end MakeInitrd.Initrd
