import MakeInitrd.Initrd.DecompressZstd

/-!
# What the four decompressors do

`decompressors_iff` says when each driver returns the content of the stream at the start of its
input and fails without one, for every library that does what its documentation says.
-/

namespace MakeInitrd.Initrd

open CNum CMem Codec Loop List

universe u
variable {σ : Type u}

/-- `gunzip` sees only as many bytes as the size modulo 2³² says, `bunzip2` likewise, and it makes a
call too many when the content is some full chunks; `unlzma` always does its work; `unzstd` does it
when nothing is behind the frame, and notices a missing end only if the library reports an error. -/
theorem decompressors_iff {σ₁ σ₂ σ₃ σ₄ : Type u} {gz : Decoder σ₁} {bz : Decoder σ₂}
    {xz : Decoder σ₃} {zst : FrameDecoder σ₄} {gzip bzip2 lzma zstd : Format}
    {rejects : Bytes → Prop} (hgz : gz.Documented gzip chunk .streamEnd)
    (hbz : bz.Documented bzip2 chunk .failed) (hbz' : bz.Eager bzip2 chunk)
    (hxz : xz.Documented lzma chunk .streamEnd) (hzst : zst.Documented zstd rejects)
    (input : Buffer) (inread : Nat) :
    (Decompresses gzip (Gunzip gz input.1 inread) input.1 inread ↔
      ∀ n, gzip.length? input.1 = some n → n ≤ input.1.length % 2 ^ 32) ∧
    (Decompresses bzip2 (Bunzip2 bz input.1 inread) input.1 inread ↔ ∀ n,
      bzip2.length? input.1 = some n →
        n ≤ input.1.length % 2 ^ 32 ∧ ¬FullChunks (bzip2.content input.1)) ∧
    Decompresses lzma (Unlzma xz input.1 inread) input.1 inread ∧
    (Decompresses zstd (Unzstd zst input.1 0) input.1 0 ↔
      (∀ n, zstd.length? input.1 = some n → n = input.1.length ∧ ¬SilentTwice zst input.1) ∧
        (zstd.length? input.1 = none → rejects input.1 ∨ SilentTwice zst input.1)) := by
  have hmax : input.1.length < ulongSize := Nat.lt_of_le_of_lt input.2 (by decide)
  exact ⟨gunzip_decompresses_iff hgz, bunzip2_decompresses_iff hbz hbz', push_decompresses hxz,
    unzstd_decompresses_iff hzst hmax⟩

/-! ## A library that knows one stream -/

section

structure OneStream where
  stream : Bytes
  content : Bytes
  stream_ne : stream ≠ []
  content_le : content.length ≤ chunk

variable (o : OneStream) {w : Bytes}

def OneStream.format : Format where
  length? bs := if o.stream <+: bs then some o.stream.length else none
  content bs := if o.stream <+: bs then o.content else []
  length_pos h := by
    split at h
    · cases h
      exact List.length_pos_iff.2 o.stream_ne
    · cases h
  length_le h := by
    split at h
    · next hpre =>
      cases h
      exact hpre.length_le
    · cases h
  extend h t := by
    split at h
    · next hpre =>
      cases h
      rw [← List.prefix_iff_eq_take.1 hpre]
      simp only [List.prefix_append, hpre, if_true, and_self]
    · cases h
  content_max bs := by
    have hle := o.content_le
    split
    · exact Nat.le_trans hle (by decide)
    · exact Nat.zero_le _

theorem OneStream.content_stream : o.format.content o.stream = o.content :=
  if_pos (prefix_refl _)

/-- The library: it looks for the stream in its first call. The state says whether it is over. -/
def OneStream.decoder (afterEnd : Status) : Decoder Bool where
  init := false
  call ended x _ :=
    if ended then ⟨true, 0, [], afterEnd⟩
    else if o.stream <+: x then ⟨true, o.stream.length, o.content, .streamEnd⟩
    else ⟨false, 0, [], .failed⟩

variable {o} {afterEnd : Status} {s : Bool} {k : Nat} {out : Bytes}

theorem OneStream.session (h : (o.decoder afterEnd).Session chunk w s k out) :
    s = false ∧ k = 0 ∧ out = [] := by
  induction h with
  | start => exact ⟨rfl, rfl, rfl⟩
  | call _ hok ih =>
    obtain ⟨rfl, rfl, rfl⟩ := ih
    simp only [decoder, Bool.false_eq_true, if_false] at hok
    split at hok <;> cases hok

theorem OneStream.documented (o : OneStream) (afterEnd : Status) :
    (o.decoder afterEnd).Documented o.format chunk afterEnd where
  next h := by
    obtain ⟨rfl, rfl, rfl⟩ := session h
    have hle := o.content_le
    simp only [decoder, format, Bool.false_eq_true, if_false, drop_zero]
    split <;> constructor <;> simp_all
  again h hend x := by
    obtain ⟨rfl, rfl, rfl⟩ := session h
    simp only [decoder, Bool.false_eq_true, if_false, drop_zero] at hend ⊢
    split at hend
    · next hpre => exact ⟨true, by simp only [hpre, if_true]⟩
    · cases hend

theorem OneStream.eager (o : OneStream) (afterEnd : Status) :
    (o.decoder afterEnd).Eager o.format chunk := by
  intro w s k out h hw _
  obtain ⟨rfl, rfl, rfl⟩ := session h
  simp only [decoder, format, Bool.false_eq_true, if_false, drop_zero, ne_eq] at hw ⊢
  split at hw
  · next hpre => rw [if_pos hpre]
  · exact absurd rfl hw

/-- The library that is fed the stream: the state is how many of its bytes it has seen. -/
def OneStream.frames (o : OneStream) : FrameDecoder Nat where
  init := 0
  call k x _ :=
    if x.take (o.stream.length - k) <+: o.stream.drop k then
      if o.stream.length ≤ k + x.length then
        ⟨0, o.stream.length - k, o.content, some 0⟩
      else ⟨k + x.length, x.length, [], some (o.stream.length - (k + x.length))⟩
    else ⟨k, 0, [], none⟩
  inSize := 131075
  outSize := 131072
  inSize_pos := by decide
  outSize_pos := by decide

/-- It rejects what is not the beginning of the stream. -/
def OneStream.rejects (o : OneStream) (w : Bytes) : Prop :=
  ¬w.take o.stream.length <+: o.stream

/-- What it has seen of the input is what the stream begins with. -/
structure OneStream.Seen (o : OneStream) (w : Bytes) (k : Nat) : Prop where
  lt : k < o.stream.length
  le : k ≤ w.length
  take : w.take k = o.stream.take k

namespace OneStream.Seen

variable {x : Bytes} {k : Nat}

section
variable (h : o.Seen w k) (hx : x <+: w.drop k)
include h hx

theorem append : w.take (k + x.length) = o.stream.take k ++ x := by
  rw [take_add, h.take, ← prefix_iff_eq_take.1 hx]

omit h in
theorem fits (hw : ¬o.rejects w) : x.take (o.stream.length - k) <+: o.stream.drop k := by
  have hdrop := (not_not.1 hw).drop k
  rw [drop_take] at hdrop
  exact (hx.take _).trans hdrop

theorem complete (hfit : x.take (o.stream.length - k) <+: o.stream.drop k)
    (hle : o.stream.length ≤ k + x.length) : o.stream <+: w := by
  have hlen : (x.take (o.stream.length - k)).length = (o.stream.drop k).length := by
    rw [length_take, length_drop]
    omega
  have heq := hfit.eq_of_length hlen
  have hall := h.append ((List.take_prefix (o.stream.length - k) x).trans hx)
  rw [heq, take_append_drop] at hall
  exact hall ▸ List.take_prefix _ _

theorem next (hfit : x.take (o.stream.length - k) <+: o.stream.drop k)
    (hlt : k + x.length < o.stream.length) : o.Seen w (k + x.length) := by
  have hle := hx.length_le
  have hk := h.le
  rw [length_drop] at hle
  rw [take_of_length_le (by omega)] at hfit
  refine ⟨hlt, by omega, ?_⟩
  rw [h.append hx, take_add, ← prefix_iff_eq_take.1 hfit]

end

theorem lt_of_rejects (h : o.Seen w k) (hw : o.rejects w) : k < w.length := by
  refine Nat.lt_of_le_of_ne h.le fun heq => hw ?_
  have hlt := h.lt
  have htake := h.take
  rw [heq, take_length] at htake
  rw [take_of_length_le (by omega), htake]
  exact List.take_prefix _ _

end OneStream.Seen

theorem OneStream.frames_call (k : Nat) (x : Bytes) (room : Nat) :
    (¬x.take (o.stream.length - k) <+: o.stream.drop k ∧
      o.frames.call k x room = ⟨k, 0, [], none⟩) ∨
    (x.take (o.stream.length - k) <+: o.stream.drop k ∧ o.stream.length ≤ k + x.length ∧
      o.frames.call k x room = ⟨0, o.stream.length - k, o.content, some 0⟩) ∨
    (x.take (o.stream.length - k) <+: o.stream.drop k ∧ k + x.length < o.stream.length ∧
      o.frames.call k x room =
        ⟨k + x.length, x.length, [], some (o.stream.length - (k + x.length))⟩) := by
  by_cases hfit : x.take (o.stream.length - k) <+: o.stream.drop k
  · by_cases hle : o.stream.length ≤ k + x.length
    · exact .inr (.inl ⟨hfit, hle, by simp only [frames, hfit, hle, if_true]⟩)
    · exact .inr (.inr ⟨hfit, by omega, by simp only [frames, hfit, hle, if_true, if_false]⟩)
  · exact .inl ⟨hfit, by simp only [frames, hfit, if_false]⟩

theorem OneStream.frames_session {s k : Nat} {out : Bytes} (h : o.frames.Session w s k out) :
    s = k ∧ out = [] ∧ o.Seen w k := by
  induction h with
  | start =>
    exact ⟨rfl, rfl, length_pos_iff.2 o.stream_ne, Nat.zero_le _, rfl⟩
  | @call s k hint out x _ hne hx hhint h0 ih =>
    obtain ⟨rfl, rfl, hseen⟩ := ih
    rcases o.frames_call s x o.frames.outSize with ⟨-, hr⟩ | ⟨-, -, hr⟩ | ⟨hfit, hlt, hr⟩
    · rw [hr] at hhint
      cases hhint
    · rw [hr] at hhint
      exact absurd (Option.some.inj hhint).symm h0
    · rw [hr]
      exact ⟨rfl, rfl, hseen.next hx hfit hlt⟩

theorem OneStream.frames_promise {k : Nat} {x : Bytes} (h : o.Seen w k) (hne : x ≠ [])
    (hx : x <+: w.drop k) :
    FrameDecoder.Promise o.format o.rejects w k [] x (o.frames.call k x o.frames.outSize) := by
  have hk := h.lt
  have hpos := length_pos_iff.2 hne
  have hlen {m : Nat} : o.format.length? w = some m → m = o.stream.length := by
    intro hm
    simp only [format] at hm
    split at hm
    · exact (Option.some.inj hm).symm
    · cases hm
  rcases o.frames_call k x o.frames.outSize with ⟨hfit, hr⟩ | ⟨hfit, hle, hr⟩ | ⟨hfit, hlt, hr⟩
  · rw [hr]
    refine ⟨fun _ hrej => hfit (Seen.fits hx (not_not.2 hrej)), Nat.zero_le _,
      fun h => absurd rfl h, fun h => absurd rfl h, ⟨nofun, fun h => absurd rfl h.1⟩,
      fun hm => ?_, fun hm => ?_, fun h => absurd rfl h⟩
    · exact absurd (hlen hm) (Nat.ne_of_lt hk)
    · rw [hlen hm]
      exact Nat.le_of_lt hk
  · have hall := h.complete hx hfit hle
    have hcontent : o.format.content w = o.content := if_pos hall
    have hsome : o.format.length? w = some o.stream.length := if_pos hall
    have hend : k + (o.stream.length - k) = o.stream.length := by omega
    rw [hr]
    refine ⟨nofun, ?_, fun _ => .inl ?_, fun _ => ?_, ?_, fun _ => rfl, fun hm => ?_, ?_⟩
    · show o.stream.length - k ≤ x.length
      omega
    · show 0 < o.stream.length - k
      omega
    · rw [hcontent]
      exact prefix_refl _
    · refine ⟨fun _ => ⟨nofun, ?_, hcontent.symm⟩, fun _ => rfl⟩
      rw [hsome, hend]
    · rw [hlen hm, hend]
    · intro _ hrej
      rw [rejects, ← prefix_iff_eq_take.1 hall] at hrej
      exact absurd (prefix_refl _) hrej
  · have hnext := h.next hx hfit hlt
    rw [hr]
    refine ⟨nofun, Nat.le_refl _, fun _ => .inl hpos, fun _ => List.nil_prefix, ⟨?_, ?_⟩,
      fun hm => ?_, fun hm => ?_, fun _ hrej => hnext.lt_of_rejects hrej⟩
    · intro h0
      have := Option.some.inj h0
      omega
    · rintro ⟨-, hm, -⟩
      exact absurd (hlen hm) (Nat.ne_of_lt hlt)
    · exact absurd (hlen hm) (Nat.ne_of_lt hlt)
    · rw [hlen hm]
      exact Nat.le_of_lt hlt

theorem OneStream.frames_documented (o : OneStream) : o.frames.Documented o.format o.rejects where
  rejects_ne_nil := by
    rintro w hrej rfl
    rw [rejects, take_nil] at hrej
    exact hrej List.nil_prefix
  rejects_length? := by
    intro w hrej
    refine if_neg fun hpre => hrej ?_
    exact prefix_iff_eq_take.1 hpre ▸ prefix_refl _
  next h hne hx := by
    obtain ⟨rfl, rfl, hseen⟩ := frames_session h
    exact frames_promise hseen hne hx

end

/-! ## Streams of the four formats -/

/-- A gzip stream of the letter `a`. -/
def gzipA : OneStream where
  stream := [0x1f, 0x8b, 8, 0, 0, 0, 0, 0, 2, 0xff, 0x4b, 4, 0, 0x43, 0xbe, 0xb7, 0xe8, 1, 0, 0, 0]
  content := [0x61]
  stream_ne := nofun
  content_le := by decide

def bzip2A : OneStream where
  stream := [0x42, 0x5a, 0x68, 0x39, 0x31, 0x41, 0x59, 0x26, 0x53, 0x59, 0x19, 0x93,
    0x9b, 0x6b, 0, 0,
    0, 1, 0, 0x20, 0, 0x20, 0, 0x21, 0x18, 0x46, 0x82, 0xee, 0x48, 0xa7, 0xa, 0x12, 3, 0x32, 0x73,
    0x6d, 0x60]
  content := [0x61]
  stream_ne := nofun
  content_le := by decide

def xzA : OneStream where
  stream := [0xfd, 0x37, 0x7a, 0x58, 0x5a, 0, 0, 4, 0xe6, 0xd6, 0xb4, 0x46, 2, 0, 0x21,
    1, 0x16, 0, 0, 0, 0x74, 0x2f, 0xe5, 0xa3, 1, 0, 0, 0x61, 0, 0, 0, 0, 5, 0x2b, 0x65, 0x2e, 0x77,
      0x84, 2, 0x33, 0,
    1, 0x19, 1, 0xa5, 0x2c, 0x81, 0xcc, 0x1f, 0xb6, 0xf3, 0x7d, 1, 0, 0, 0, 0, 4, 0x59, 0x5a]
  content := [0x61]
  stream_ne := nofun
  content_le := by decide

/-- A zstd frame of it: one raw block. -/
def zstdA : OneStream where
  stream := [0x28, 0xb5, 0x2f, 0xfd, 0x20, 1, 9, 0, 0, 0x61]
  content := [0x61]
  stream_ne := nofun
  content_le := by decide

/-- A bzip2 stream of one full chunk of zeros. -/
def bzip2Chunk : OneStream where
  stream := [0x42, 0x5a, 0x68, 0x39, 0x31, 0x41, 0x59, 0x26, 0x53, 0x59, 0x61, 0x4b,
    0x2a, 0xd5, 0, 0,
    0x20, 0x48, 0, 0xc0, 0, 0, 4, 0, 8, 0x20, 0, 0x30, 0xcc, 5, 0x53, 0x6a, 0x40, 0x51, 0xc0, 0xf1,
    0x77, 0x24, 0x53, 0x85, 9, 6, 0x14, 0xb2, 0xad, 0x50]
  content := zeros chunk
  stream_ne := nofun
  content_le := Nat.le_of_eq List.length_replicate

/-- Each driver decompresses the stream of its format. -/
theorem decompressors_iff_letter :
    Decompresses gzipA.format (Gunzip (gzipA.decoder .streamEnd) gzipA.stream 0) gzipA.stream 0 ∧
    Decompresses bzip2A.format (Bunzip2 (bzip2A.decoder .failed) bzip2A.stream 0) bzip2A.stream 0 ∧
    Decompresses xzA.format (Unlzma (xzA.decoder .streamEnd) xzA.stream 0) xzA.stream 0 ∧
    Decompresses zstdA.format (Unzstd zstdA.frames zstdA.stream 0) zstdA.stream 0 := by
  have hall (input : Buffer) := decompressors_iff (gzipA.documented .streamEnd)
    (bzip2A.documented .failed) (bzip2A.eager .failed) (xzA.documented .streamEnd)
    zstdA.frames_documented input 0
  refine ⟨(hall ⟨gzipA.stream, by decide⟩).1.2 ?_, (hall ⟨bzip2A.stream, by decide⟩).2.1.2 ?_,
    (hall ⟨xzA.stream, by decide⟩).2.2.1, (hall ⟨zstdA.stream, by decide⟩).2.2.2.2 ⟨?_, ?_⟩⟩
  · intro n hn
    cases (show gzipA.format.length? gzipA.stream = some 21 by decide).symm.trans hn
    decide
  · intro n hn
    cases (show bzip2A.format.length? bzip2A.stream = some 37 by decide).symm.trans hn
    refine ⟨by decide, fun hchunks => ?_⟩
    have hlen : (bzip2A.format.content bzip2A.stream).length = 1 := by decide
    exact absurd (hlen ▸ hchunks.2) (by decide)
  · intro n hn
    cases (show zstdA.format.length? zstdA.stream = some 10 by decide).symm.trans hn
    refine ⟨rfl, fun hsilent => ?_⟩
    cases hsilent.2.1
  · intro hnone
    cases hnone

/-- `unzstd` takes a frame cut off before its last byte for a success and never says where a frame
ends that has a byte behind it; `bunzip2` fails on a stream whose content is one full chunk. -/
theorem not_decompressors : ¬Decompresses zstdA.format (Unzstd zstdA.frames (zstdA.stream.take 9) 0)
      (zstdA.stream.take 9) 0 ∧
    ¬Decompresses zstdA.format (Unzstd zstdA.frames (zstdA.stream ++ [0]) 0)
      (zstdA.stream ++ [0]) 0 ∧
    ¬Decompresses bzip2Chunk.format (Bunzip2 (bzip2Chunk.decoder .failed) bzip2Chunk.stream 0)
      bzip2Chunk.stream 0 := by
  refine ⟨fun h => ?_, fun h => ?_, fun h => ?_⟩
  · have hok : Unzstd zstdA.frames (zstdA.stream.take 9) 0 (.returned .ok (some []) 9) :=
      ⟨3, by decide +kernel⟩
    have hnone : zstdA.format.length? (zstdA.stream.take 9) = none := by decide
    simp only [Decompresses, hnone] at h
    obtain ⟨out, inread', hfail⟩ := h
    cases hok.unique hfail
  · have hlen : zstdA.format.length? (zstdA.stream ++ [0]) = some 10 := by decide
    simp only [Decompresses, hlen] at h
    cases unzstd_inread h
  · have hlen : bzip2Chunk.format.length? bzip2Chunk.stream = some 46 := by decide
    refine ((bunzip2_decompresses_iff (bzip2Chunk.documented .failed) (bzip2Chunk.eager .failed)).1
      h 46 hlen).2 ?_
    have hcontent : bzip2Chunk.content = zeros chunk := rfl
    rw [OneStream.content_stream, hcontent, FullChunks, zeros, length_replicate, ← length_pos_iff,
      length_replicate]
    exact ⟨by decide, Nat.dvd_refl _⟩

end MakeInitrd.Initrd
