import MakeInitrd.Initrd.CpioRead

/-!
# `read_stream`

An initrd image is read from its start: where the bytes show the magic of a compressed stream they
are decompressed and the content is read in the same way, elsewhere an uncompressed archive is
expected. At the top level a bootconfig at the end of the image is cut off first. The decompressors
are a parameter here.

`read_stream` need not end, so it takes fuel: `none` stands for a run that needs more of it, and
more fuel does not change what a run returns (`streamLoop_mono`). The list `res->streams`, which is
only read to free memory, is left out.
-/

namespace MakeInitrd.Initrd

open CNum CMem Loop

/-! ## Compression formats -/

/-- The functions a `decompress_fn` can point to. -/
inductive Method where
  | gunzip
  | bunzip2
  | unlzma
  | unzstd
deriving DecidableEq

/-- `struct compress_format` -/
structure CompressFormat where
  magic : Bytes
  name : Label
  decompressor : Option Method
deriving DecidableEq

/-- The libraries the tools are built with: `HAVE_GZIP`, `HAVE_BZIP2`, `HAVE_LZMA`, `HAVE_ZSTD`. -/
structure Config where
  gzip : Bool
  bzip2 : Bool
  lzma : Bool
  zstd : Bool
deriving DecidableEq

/-- `compressed_formats`, without the entry that ends it. -/
def compressedFormats (c : Config) : List CompressFormat :=
  (if c.gzip then
    [⟨[0x1f, 0x8b], .gzip, some .gunzip⟩, ⟨[0x1f, 0x9e], .gzip, some .gunzip⟩] else []) ++
  (if c.bzip2 then [⟨[0x42, 0x5a], .bzip2, some .bunzip2⟩] else []) ++
  (if c.lzma then [⟨[0x5d, 0x00], .lzma, none⟩, ⟨[0xfd, 0x37], .xz, some .unlzma⟩] else []) ++
  (if c.zstd then [⟨[0x28, 0xb5], .zstd, some .unzstd⟩] else []) ++
  [⟨[0x89, 0x4c], .lzo, none⟩, ⟨[0x02, 0x21], .lz4, none⟩]

/-- The first format with these two bytes as its magic. -/
def formatOf (c : Config) (magic : Bytes) : Option CompressFormat :=
  (compressedFormats c).find? fun cf => cf.magic == magic

/-- `decompress_method(inbuf, len, name)`: the format found, if any. The function returned is its
`decompressor`, the name is its `name`. -/
def decompressMethod (c : Config) (inbuf : Ptr) (len : Nat) : Option (Option CompressFormat) :=
  if len < 2 then some none else (inbuf.bytes? 2).map (formatOf c)

/-! ## The loop over the streams -/

/-- The build and its decompressors: from the bytes of a buffer the content of the stream at its
start and the number of bytes read, or `none` for `DECOMP_FAIL`. -/
structure Env where
  config : Config
  decompress : Method → Bytes → Option (Buffer × Nat)

/-- Why `read_stream` does not return. -/
inductive StreamError where
  /-- "decompressor failed" -/
  | decompressor
  /-- "bootconfig size %d is greater than initrd size %ld" -/
  | bootconfigSize
  /-- an exit of `read_cpio` -/
  | cpio (e : CpioError)
  /-- not an exit of the source: it reads outside the image -/
  | outOfBounds
deriving DecidableEq

/-- What the loop of `read_stream` finds at an offset. -/
inductive StreamStep where
  | finish
  | fail (e : StreamError)
  | unpack (name : Label) (content : Buffer) (readed : Nat)
  | archive

/-- Format detection and decompression at an offset. -/
def streamStep (env : Env) (addr : Ptr) (size offset : Nat) : StreamStep :=
  if size ≤ offset then .finish
  else match decompressMethod env.config (addr.add offset) (size - offset) with
  | none => .fail .outOfBounds
  | some found =>
    match found.bind fun cf => cf.decompressor.map (·, cf.name) with
    | none => .archive
    | some (method, name) =>
      match (addr.add offset).bytes? (size - offset) with
      | none => .fail .outOfBounds
      | some inbuf =>
        match env.decompress method inbuf with
        | none => .fail .decompressor
        | some (unpack, readed) => .unpack name unpack readed

/-- The `struct cpio` made for an archive at an offset. -/
def cpioAt (compress : Label) (addr : Ptr) (size offset : Nat) : Cpio where
  type := .archive
  compress := some compress
  raw := addr.add offset
  size := size - offset
  headers := []

/-- The loop of `read_stream`, entered with an offset and the archives found so far. Below the top
level `read_stream` is nothing but this loop. -/
def streamLoop (env : Env) : Nat → Label → Ptr → Nat → Nat → List Cpio →
    Option (Except StreamError (List Cpio))
  | 0, _, _, _, _, _ => none
  | fuel + 1, compress, addr, size, offset, cpios =>
    match streamStep env addr size offset with
    | .finish => some (.ok cpios)
    | .fail e => some (.error e)
    | .unpack name content readed =>
      match streamLoop env fuel name ⟨content, 0⟩ content.1.length 0 cpios with
      | some (.ok cpios) =>
        streamLoop env fuel compress addr size ((offset + readed) % ulongSize) cpios
      | r => r
    | .archive =>
      let cpio := cpioAt compress addr size offset
      match run (readRound cpio) fuel (0, cpio.headers) with
      | none => none
      | some (.error e) => some (.error (.cpio e))
      | some (.ok (n, headers)) =>
        streamLoop env fuel compress addr size ((offset + n) % ulongSize)
          (listAppend cpios { cpio with headers := headers })

/-- More fuel does not change the result. -/
theorem streamLoop_mono {env : Env} {n m : Nat} (hnm : n ≤ m) {compress : Label} {addr : Ptr}
    {size offset : Nat} {cpios : List Cpio} {r : Except StreamError (List Cpio)}
    (h : streamLoop env n compress addr size offset cpios = some r) :
    streamLoop env m compress addr size offset cpios = some r := by
  induction n generalizing m compress addr size offset cpios r with
  | zero => cases h
  | succ n ih =>
    obtain ⟨m, rfl⟩ := Nat.exists_eq_add_of_le' (Nat.lt_of_lt_of_le (Nat.succ_pos n) hnm)
    have hnm : n ≤ m := Nat.le_of_succ_le_succ hnm
    -- the two runs take the same branch; only the inner runs have more fuel
    rw [streamLoop] at h ⊢
    cases hstep : streamStep env addr size offset with
    | finish | fail =>
      rw [hstep] at h
      exact h
    | unpack name content readed =>
      rw [hstep] at h
      dsimp only at h ⊢
      cases hinner : streamLoop env n name ⟨content, 0⟩ content.1.length 0 cpios with
      | none =>
        rw [hinner] at h
        cases h
      | some r' =>
        rw [hinner] at h
        rw [ih hnm hinner]
        cases r' with
        | error e => exact h
        | ok cpios' => exact ih hnm h
    | archive =>
      rw [hstep] at h
      dsimp only at h ⊢
      cases hread : run (readRound (cpioAt compress addr size offset)) n
          (0, (cpioAt compress addr size offset).headers) with
      | none =>
        rw [hread] at h
        cases h
      | some r' =>
        rw [hread] at h
        rw [run_mono hread hnm]
        cases r' with
        | error e => exact h
        | ok p => exact ih hnm h

/-! ## The bootconfig -/

/-- `BOOTCONFIG_MAGIC`, "#BOOTCONFIG\n" -/
def bootconfigMagic : Bytes := [35, 66, 79, 79, 84, 67, 79, 78, 70, 73, 71, 10]

/-- `n` tries to find the magic, at `data` and the bytes before it. -/
def findMagic : Nat → Ptr → Except StreamError (Option Ptr)
  | 0, _ => .ok none
  | n + 1, data =>
    match data.bytes? bootconfigMagic.length with
    | none => .error .outOfBounds
    | some bs => if bs = bootconfigMagic then .ok (some data) else findMagic n (data.sub 1)

/-- `le32toh` of four bytes. -/
def le32 (bs : Bytes) : Nat :=
  bs.foldr (fun b acc => b.toNat + 256 * acc) 0

/-- What `read_stream` does at the label `bootconfig`, for the magic at `data`: the payload, its
size, and what becomes of `arv->size`. -/
def cutBootconfig (addr : Ptr) (size : Nat) (data : Ptr) : Except StreamError (Ptr × Nat × Nat) :=
  match (data.sub 8).bytes? 4 with
  | none => .error .outOfBounds
  | some sizeLe =>
    if size < le32 sizeLe then .error .bootconfigSize
    else
      let payload := (data.sub 8).sub (le32 sizeLe)
      .ok (payload, le32 sizeLe, payload.diff addr)

/-- The `struct cpio` made for a bootconfig. -/
def bootconfigCpio (data : Ptr) (size : Nat) : Cpio where
  type := .bootconfig
  compress := none
  raw := data
  size := size
  headers := []

/-- `read_stream(compress, arv, res)` at the top level, with an empty `res`. -/
def readStream (env : Env) (fuel : Nat) (compress : Label) (addr : Ptr) (size : Nat) :
    Option (Except StreamError (List Cpio)) :=
  match findMagic 4 ((addr.add size).sub bootconfigMagic.length) with
  | .error e => some (.error e)
  | .ok none => streamLoop env fuel compress addr size 0 []
  | .ok (some magic) =>
    match cutBootconfig addr size magic with
    | .error e => some (.error e)
    | .ok (data, bootSize, size) =>
      match streamLoop env fuel compress addr size 0 [] with
      | some (.ok cpios) => some (.ok (listAppend cpios (bootconfigCpio data bootSize)))
      | r => r

end MakeInitrd.Initrd
