import MakeInitrd.Initrd.Image

/-!
# Looking for a bootconfig

`read_stream` looks for the magic of a bootconfig from the end of the image backwards, without
asking whether the image is that long. The size before the magic is compared with the size of the
image, where the room in front of the header is meant. `soundBootconfig_iff` says which images are
read as they should be all the same.
-/

namespace MakeInitrd.Initrd

open CNum CMem

/-- Where the first try for the magic is made. -/
def footer (image : Buffer) : Ptr :=
  ((Ptr.mk image 0).add image.1.length).sub bootconfigMagic.length

/-- The places `findMagic` compares with the magic. -/
def compared : Nat → Ptr → List Ptr
  | 0, _ => []
  | n + 1, data => data ::
    match data.bytes? bootconfigMagic.length with
    | none => []
    | some bs => if bs = bootconfigMagic then [] else compared n (data.sub 1)

/-- The `n` bytes at the pointer are inside the image. -/
def Inside (image : Buffer) (p : Ptr) (n : Nat) : Prop :=
  p.mem = image ∧ p.off + n ≤ image.1.length

/-- Payload, header and magic are inside the image, one behind the other, and what remains of the
image is what stands before the payload. -/
structure CutAt (image : Buffer) (magic data : Ptr) (n size : Nat) : Prop where
  inside : Inside image data (n + 8 + bootconfigMagic.length)
  magic_eq : data.off + n + 8 = magic.off
  size_eq : size = data.off
  size_lt : size < image.1.length

/-- What `read_stream` is to do with the magic at some place: it refuses the image, or goes on with
what stands before the payload. -/
def CutSound (image : Buffer) (magic : Ptr) : Prop :=
  cutBootconfig ⟨image, 0⟩ image.1.length magic = .error .bootconfigSize ∨
    ∃ data n size, cutBootconfig ⟨image, 0⟩ image.1.length magic = .ok (data, n, size) ∧
      CutAt image magic data n size

/-- The bytes compared with the magic are inside the image, and where the magic is found, it is
dealt with as it should be. -/
structure SoundBootconfig (image : Buffer) : Prop where
  compared : ∀ p ∈ compared 4 (footer image), Inside image p bootconfigMagic.length
  cut : ∀ magic, findMagic 4 (footer image) = .ok (some magic) → CutSound image magic

/-- The magic stands before the last `i` bytes of the image, and not before fewer. -/
structure MagicAt (image : Bytes) (i : Nat) : Prop where
  lt : i < 4
  le : i + bootconfigMagic.length ≤ image.length
  found : window image (image.length - bootconfigMagic.length - i) = bootconfigMagic
  first : ∀ j < i, window image (image.length - bootconfigMagic.length - j) ≠ bootconfigMagic

/-- The size in a header at this position. -/
def sizeField (image : Bytes) (pos : Nat) : Nat :=
  le32 ((image.drop pos).take 4)

/-- The image has the magic at its end or room for all tries. Before the magic there is a header,
with a size for which there is room, or one that is refused. -/
def RoomForBootconfig (image : Bytes) : Prop :=
  (bootconfigMagic.length + 3 ≤ image.length ∨ ∃ i, MagicAt image i) ∧
    ∀ i, MagicAt image i → ∃ pos, pos + 8 + bootconfigMagic.length + i = image.length ∧
      (sizeField image pos ≤ pos ∨ image.length < sizeField image pos)

section

variable {image : Buffer} {k n : Nat}

theorem footer_eq (h : bootconfigMagic.length ≤ image.1.length) :
    footer image = ⟨image, image.1.length - bootconfigMagic.length⟩ := by
  rw [footer, Ptr.add_mk (Nat.zero_add _).le, Nat.zero_add, Ptr.sub_mk h]

theorem not_inside_sub (_ : k ≤ image.1.length) (h : k < n) (hn : n ≤ bootconfigMagic.length) :
    ¬Inside image ((Ptr.mk image k).sub n) bootconfigMagic.length := by
  rintro ⟨-, hle⟩
  have hmax := image.2
  rw [Ptr.sub, if_neg (Nat.not_le.2 h)] at hle
  simp only [objectMax, ulongSize] at *
  omega

/-- The search looks at the first window, and at the ones before it while they are not the magic. -/
theorem compared_succ (hlen : k + bootconfigMagic.length ≤ image.1.length) :
    compared (n + 1) ⟨image, k⟩ = ⟨image, k⟩ ::
      if window image.1 k = bootconfigMagic then [] else compared n ((Ptr.mk image k).sub 1) := by
  rw [compared, bytes?_window hlen]

/-- The search stays inside the image if there is room for all its windows, or the magic is found
before the start of the image is reached. -/
theorem inside_compared_iff (hlen : k + bootconfigMagic.length ≤ image.1.length) :
    (∀ p ∈ compared n ⟨image, k⟩, Inside image p bootconfigMagic.length) ↔
      n ≤ k + 1 ∨ ∃ i < n, i ≤ k ∧ window image.1 (k - i) = bootconfigMagic := by
  induction n generalizing k with
  | zero => simp [compared]
  | succ n ih =>
    rw [compared_succ hlen, List.forall_mem_cons, and_iff_right ⟨rfl, hlen⟩]
    by_cases hk : window image.1 k = bootconfigMagic
    · rw [if_pos hk]
      exact ⟨fun _ => .inr ⟨0, Nat.succ_pos n, Nat.zero_le k, hk⟩, fun _ => by simp⟩
    rw [if_neg hk]
    cases k with
    | zero =>
      -- The next window would begin before the image.
      cases n with
      | zero => simp [compared]
      | succ n =>
        refine iff_of_false (fun hall => ?_) ?_
        · exact not_inside_sub (Nat.zero_le _) Nat.one_pos (by decide) (hall _ (.head _))
        · rintro (hn | ⟨i, -, hi, hw⟩)
          · omega
          · exact hk (by rwa [Nat.le_zero.1 hi] at hw)
    | succ k =>
      rw [Ptr.sub_mk (Nat.le_add_left 1 k), Nat.add_sub_cancel, ih (by omega)]
      refine or_congr (Nat.succ_le_succ_iff).symm ⟨?_, ?_⟩
      · rintro ⟨i, hi, hik, hw⟩
        exact ⟨i + 1, Nat.succ_lt_succ hi, Nat.succ_le_succ hik, by rwa [Nat.add_sub_add_right]⟩
      · rintro ⟨_ | i, hi, hik, hw⟩
        · exact absurd hw hk
        · exact ⟨i, Nat.lt_of_succ_lt_succ hi, Nat.le_of_succ_le_succ hik,
            by rwa [Nat.add_sub_add_right] at hw⟩

theorem findMagic_outside {magic : Ptr} (h : ¬Inside image ⟨image, k⟩ bootconfigMagic.length) :
    findMagic n ⟨image, k⟩ ≠ .ok (some magic) := by
  intro hfind
  cases n with
  | zero => simp [findMagic] at hfind
  | succ n =>
    have hnone : (Ptr.mk image k).bytes? bootconfigMagic.length = none :=
      if_neg fun hor => h ⟨rfl, hor.resolve_left (by decide)⟩
    rw [findMagic, hnone] at hfind
    cases hfind

/-- The magic that is found is the last one. -/
theorem findMagic_inv {magic : Ptr} (hlen : k + bootconfigMagic.length ≤ image.1.length)
    (h : findMagic n ⟨image, k⟩ = .ok (some magic)) :
    ∃ i < n, i ≤ k ∧ magic = ⟨image, k - i⟩ ∧ window image.1 (k - i) = bootconfigMagic ∧
      ∀ j < i, window image.1 (k - j) ≠ bootconfigMagic := by
  induction n generalizing k with
  | zero => simp [findMagic] at h
  | succ n ih =>
    rw [findMagic, bytes?_window hlen] at h
    dsimp only at h
    split_ifs at h with hk
    · cases h
      exact ⟨0, Nat.succ_pos n, Nat.zero_le k, rfl, hk, fun j hj => absurd hj (Nat.not_lt_zero j)⟩
    cases k with
    | zero =>
      exact absurd h (findMagic_outside (not_inside_sub (Nat.zero_le _) Nat.one_pos (by decide)))
    | succ k =>
      rw [Ptr.sub_mk (Nat.le_add_left 1 k), Nat.add_sub_cancel] at h
      obtain ⟨i, hi, hik, rfl, hw, hfirst⟩ := ih (by omega) h
      refine ⟨i + 1, Nat.succ_lt_succ hi, Nat.succ_le_succ hik, ?_, ?_, ?_⟩
      · rw [Nat.add_sub_add_right]
      · rwa [Nat.add_sub_add_right]
      · rintro (_ | j) hj
        · exact hk
        · rw [Nat.add_sub_add_right]
          exact hfirst j (Nat.lt_of_succ_lt_succ hj)

end

section

variable {image : Buffer} {magic : Ptr} {i : Nat}

/-- `read_stream` finds the magic where it first stands, seen from the end. -/
theorem findMagic_footer (hlen : bootconfigMagic.length ≤ image.1.length) :
    findMagic 4 (footer image) = .ok (some magic) ↔
      ∃ i, MagicAt image.1 i ∧ magic = ⟨image, image.1.length - bootconfigMagic.length - i⟩ := by
  rw [footer_eq hlen]
  constructor
  · intro h
    obtain ⟨i, hi, hle, rfl, hw, hfirst⟩ := findMagic_inv (by omega) h
    exact ⟨i, ⟨hi, by omega, hw, hfirst⟩, rfl⟩
  · rintro ⟨i, hat, rfl⟩
    have hle := hat.le
    exact findMagic_eq_some hat.lt (by omega) (by omega) hat.first hat.found

theorem exists_magicAt_iff (hlen : bootconfigMagic.length ≤ image.1.length) :
    (∃ i < 4, i ≤ image.1.length - bootconfigMagic.length ∧
      window image.1 (image.1.length - bootconfigMagic.length - i) = bootconfigMagic) ↔
    ∃ i, MagicAt image.1 i := by
  constructor
  · intro h
    obtain ⟨hlt, hle, hfound⟩ := Nat.find_spec h
    refine ⟨Nat.find h, hlt, by omega, hfound, fun j hj hw => Nat.find_min h hj ⟨?_, ?_, hw⟩⟩
    · exact hj.trans hlt
    · exact hj.le.trans hle
  · rintro ⟨i, hat⟩
    have hle := hat.le
    exact ⟨i, hat.lt, by omega, hat.found⟩

theorem inside_footer_iff :
    (∀ p ∈ compared 4 (footer image), Inside image p bootconfigMagic.length) ↔
    bootconfigMagic.length + 3 ≤ image.1.length ∨ ∃ i, MagicAt image.1 i := by
  by_cases hlen : bootconfigMagic.length ≤ image.1.length
  · rw [footer_eq hlen, inside_compared_iff (by omega), exists_magicAt_iff hlen]
    refine or_congr_left ?_
    omega
  · refine iff_of_false (fun hall => ?_) ?_
    · have hhead := hall (footer image) (.head _)
      rw [footer, Ptr.add_mk (Nat.zero_add _).le, Nat.zero_add] at hhead
      exact not_inside_sub (le_refl _) (Nat.not_le.1 hlen) (le_refl _) hhead
    · rintro (h | ⟨i, hat⟩)
      · omega
      · have := hat.le
        omega

theorem cutBootconfig_header {pos : Nat} (h : pos + 8 ≤ image.1.length) :
    cutBootconfig ⟨image, 0⟩ image.1.length ⟨image, pos + 8⟩ =
      if image.1.length < sizeField image.1 pos then .error .bootconfigSize
      else .ok ((Ptr.mk image pos).sub (sizeField image.1 pos), sizeField image.1 pos,
        ((Ptr.mk image pos).sub (sizeField image.1 pos)).off) := by
  have hread : (Ptr.mk image pos).bytes? 4 = some ((image.1.drop pos).take 4) :=
    if_pos (.inr (by dsimp only; omega))
  rw [cutBootconfig, Ptr.sub_mk (Nat.le_add_left 8 pos), Nat.add_sub_cancel, hread]
  dsimp only
  rw [sizeField, show ∀ p : Ptr, p.diff ⟨image, 0⟩ = p.off from fun p => if_pos (Nat.zero_le _)]

theorem cutBootconfig_outside {k : Nat} (hk : k < 8) (_ : k ≤ image.1.length) :
    cutBootconfig ⟨image, 0⟩ image.1.length ⟨image, k⟩ = .error .outOfBounds := by
  have hmax := image.2
  have hnone : ((Ptr.mk image k).sub 8).bytes? 4 = none := by
    refine if_neg ?_
    rw [Ptr.sub, if_neg (Nat.not_le.2 hk)]
    simp only [objectMax, ulongSize] at *
    omega
  rw [cutBootconfig, hnone]

/-- A magic inside the image is dealt with as it should be, exactly if there is a header before it,
with a size for which there is room or which is refused. -/
theorem cutSound_iff {k : Nat} (hk : k + bootconfigMagic.length ≤ image.1.length) :
    CutSound image ⟨image, k⟩ ↔ ∃ pos, pos + 8 = k ∧
      (sizeField image.1 pos ≤ pos ∨ image.1.length < sizeField image.1 pos) := by
  rw [CutSound]
  by_cases hpos : k < 8
  · rw [cutBootconfig_outside hpos (by omega)]
    refine iff_of_false ?_ ?_
    · rintro (h | ⟨_, _, _, h, -⟩) <;> cases h
    · rintro ⟨pos, rfl, -⟩
      omega
  obtain ⟨pos, rfl⟩ := Nat.exists_eq_add_of_le' (Nat.not_lt.1 hpos)
  rw [cutBootconfig_header (by omega)]
  constructor
  · rintro (h | ⟨data, n, size, h, hcut⟩)
    · split_ifs at h with hsize
      exact ⟨pos, rfl, .inr hsize⟩
    · split_ifs at h with hsize
      cases h
      have hmagic : _ = pos + 8 := hcut.magic_eq
      exact ⟨pos, rfl, .inl (by omega)⟩
  · rintro ⟨pos', heq, hor⟩
    obtain rfl : pos' = pos := by omega
    split_ifs with hsize
    · exact .inl rfl
    · have hle := hor.resolve_right hsize
      rw [Ptr.sub_mk hle]
      refine .inr ⟨_, _, _, rfl, ⟨rfl, ?_⟩, ?_, rfl, ?_⟩
      all_goals
        dsimp only
        omega

theorem MagicAt.cutSound_iff (hat : MagicAt image.1 i) :
    CutSound image ⟨image, image.1.length - bootconfigMagic.length - i⟩ ↔
      ∃ pos, pos + 8 + bootconfigMagic.length + i = image.1.length ∧
        (sizeField image.1 pos ≤ pos ∨ image.1.length < sizeField image.1 pos) := by
  have hle := hat.le
  rw [Initrd.cutSound_iff (by omega)]
  refine exists_congr fun pos => and_congr_left' ?_
  omega

/-- The bootconfig of an image is looked for as it should be, exactly if there is room for it. -/
theorem soundBootconfig_iff (image : Buffer) :
    SoundBootconfig image ↔ RoomForBootconfig image.1 := by
  constructor
  · rintro ⟨hcompared, hcut⟩
    refine ⟨inside_footer_iff.1 hcompared, fun i hat => hat.cutSound_iff.1 (hcut _ ?_)⟩
    exact (findMagic_footer ((Nat.le_add_left _ i).trans hat.le)).2 ⟨i, hat, rfl⟩
  · rintro ⟨hroom, hhdr⟩
    refine ⟨inside_footer_iff.2 hroom, fun magic hfind => ?_⟩
    have hlen : bootconfigMagic.length ≤ image.1.length := by
      obtain h | ⟨i, hat⟩ := hroom
      · exact (Nat.le_add_right _ 3).trans h
      · exact (Nat.le_add_left _ i).trans hat.le
    obtain ⟨i, hat, rfl⟩ := (findMagic_footer hlen).1 hfind
    exact hat.cutSound_iff.2 (hhdr i hat)

/-- A header that tells of one byte of payload, a checksum and the magic, and nothing before them.
-/
def headerOnly : Buffer :=
  ⟨le32Bytes 1 ++ (zeros 4 ++ bootconfigMagic), by decide⟩

/-- The payload begins before the image, and the image that remains is said to have `2 ^ 64 - 1`
bytes. -/
theorem not_soundBootconfig : ¬SoundBootconfig headerOnly := by
  rintro ⟨-, hcut⟩
  have hfind : findMagic 4 (footer headerOnly) = .ok (some ⟨headerOnly, 8⟩) := by decide +kernel
  have hok : cutBootconfig ⟨headerOnly, 0⟩ headerOnly.1.length ⟨headerOnly, 8⟩ =
      .ok (⟨headerOnly, ulongSize - 1⟩, 1, ulongSize - 1) := by decide +kernel
  obtain h | ⟨data, n, size, h, hat⟩ := hcut _ hfind
  · cases hok.symm.trans h
  · cases hok.symm.trans h
    exact absurd hat.size_lt (by decide)

end

end MakeInitrd.Initrd
