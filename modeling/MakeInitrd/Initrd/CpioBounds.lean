import MakeInitrd.Initrd.CpioRoundTrip

/-!
# What the reader looks at

`read_cpio` is to look only at bytes of its archive. It leaves the archive at a rest of fewer than
six bytes, which it compares with the magic, and through lengths that are carried round, as
`unsigned long` reduces the sums that are tested. `staysInside_iff` says that there is no other way.
-/

namespace MakeInitrd.Initrd

open CNum CMem Loop List

/-!
## The way through an archive

A field of a header may have a minus sign, of which `strtoul` makes a huge number that takes the
offset back. This is the only way in which the loop can fail to go forward (`progresses_iff`).
-/

section
/-- The loop of `read_cpio` goes through this offset, with these headers found so far. -/
def Cpio.Reached (a : Cpio) : Nat × List CpioHeader → Prop :=
  Reaches (readRound a) (0, a.headers)

/-- The loop ends, and every round that does not leave it brings the offset forward. -/
structure Cpio.Progresses (a : Cpio) : Prop where
  ends : ∃ r, ReadCpio a r
  forward : ∀ st st', a.Reached st → readRound a st = .again st' → st.1 < st'.1

/-- The length of an entry up to the end of its body, as `unsigned long`. -/
def entryLength (f : Fields) : Nat :=
  (headerSize + nAlign f.nameLen + f.bodyLen) % ulongSize

/-- The entry at this offset has a length, and its end is not carried round. -/
def Forward (offset : Nat) (f : Fields) : Prop :=
  0 < entryLength f ∧ offset + entryLength f + 3 < ulongSize

variable {a : Cpio} {offset offset' : Nat} {f : Fields} {st : Nat × List CpioHeader}

theorem nextOffset_eq (offset : Nat) (f : Fields) :
    nextOffset offset f = (offset + entryLength f + 3) % ulongSize / 4 * 4 := by
  simp only [nextOffset, entryLength, ulongSize]
  omega

theorem lt_nextOffset_iff (ho : 4 ∣ offset) (hlt : offset < ulongSize) :
    offset < nextOffset offset f ↔ Forward offset f := by
  have hlen : entryLength f < ulongSize := Nat.mod_lt _ (by decide)
  rw [nextOffset_eq, Forward]
  simp only [ulongSize] at *
  omega

theorem Cpio.Reached.aligned (h : a.Reached st) : 4 ∣ st.1 ∧ st.1 < ulongSize := by
  induction h with
  | refl => exact ⟨Nat.dvd_zero 4, Nat.pow_pos (by decide)⟩
  | tail _ hround _ =>
    obtain ⟨-, h, offset', hok, -, rfl⟩ := readRound_again hround
    obtain ⟨-, -, -, -, -, -, rfl, -⟩ := readEntry_eq_ok.1 hok
    refine ⟨Nat.dvd_mul_left 4 _, ?_⟩
    show nextOffset _ _ < ulongSize
    simp only [nextOffset, ulongSize]
    omega

theorem readCpio_ends (hfwd : ∀ st st', a.Reached st → readRound a st = .again st' → st.1 < st'.1) :
    ∃ r, ReadCpio a r := by
  have hround : ∀ st, a.Reached st → (∃ r, readRound a st = .done r ∧ True) ∨
      ∃ st', readRound a st = .again st' ∧ a.Reached st' ∧ a.size - st'.1 < a.size - st.1 := by
    intro st hst
    cases hround : readRound a st with
    | done r => exact .inl ⟨r, rfl, trivial⟩
    | again st' =>
      have hlt := hfwd st st' hst hround
      have hsize := (readRound_again hround).1
      refine .inr ⟨st', rfl, hst.tail hround, ?_⟩
      omega
  obtain ⟨r, hr, -⟩ : ∃ r, Returns (readRound a) (0, a.headers) r ∧ True :=
    returns_of_variant (I := a.Reached) (fun st => a.size - st.1) hround .refl
  exact ⟨r, hr⟩

/-- The loop ends and goes forward in every round exactly if every entry it accepts, except the
trailer, brings it forward. -/
theorem progresses_iff (a : Cpio) : a.Progresses ↔
    ∀ st h offset', a.Reached st → st.1 < a.size → readEntry a st.1 = .ok (h, offset') →
      isTrailer h = some false → Forward st.1 h.toFields := by
  constructor
  · rintro ⟨-, hfwd⟩ st h offset' hst hlt hok htr
    have hround : readRound a st = .again (offset', st.2 ++ [h]) := by
      simp only [readRound, if_pos hlt, hok, htr, listAppend]
    have hnext := hfwd st _ hst hround
    obtain ⟨-, -, -, -, -, -, rfl, -⟩ := readEntry_eq_ok.1 hok
    exact (lt_nextOffset_iff hst.aligned.1 hst.aligned.2).1 hnext
  · intro hentries
    have hfwd : ∀ st st', a.Reached st → readRound a st = .again st' → st.1 < st'.1 := by
      intro st st' hst hround
      obtain ⟨hlt, h, offset', hok, htr, rfl⟩ := readRound_again hround
      have hforward := hentries st h offset' hst hlt hok htr
      obtain ⟨-, -, -, -, -, -, rfl, -⟩ := readEntry_eq_ok.1 hok
      exact (lt_nextOffset_iff hst.aligned.1 hst.aligned.2).2 hforward
    exact ⟨readCpio_ends hfwd, hfwd⟩

/-- A header whose name has one byte and whose body has `-0x70` bytes: together with the name and
the header itself that is nothing. Behind it are six bytes, for the archive to be long enough. -/
def backwardHeader : Bytes :=
  newAscii ++ (List.replicate 48 48 ++ ([45, 48, 48, 48, 48, 48, 55, 48] ++ (List.replicate 32 48 ++
    ([48, 48, 48, 48, 48, 48, 48, 49] ++ List.replicate 14 48))))

def backward : Cpio :=
  Cpio.ofBuffer ⟨backwardHeader, by decide⟩

theorem exists_of_readEntry {t : Option Bool}
    (hentry : (readEntry a offset).toOption.map (fun r => (r.2, isTrailer r.1)) =
      some (offset', t)) :
    ∃ h, readEntry a offset = .ok (h, offset') ∧ isTrailer h = t := by
  cases hok : readEntry a offset with
  | error e =>
    rw [hok] at hentry
    cases hentry
  | ok r =>
    rw [hok] at hentry
    obtain ⟨hoff, htr⟩ := Prod.mk.inj (Option.some.inj hentry)
    exact ⟨r.1, by rw [← hoff], htr⟩

/-- The archive is read for ever. -/
theorem not_progresses : ¬backward.Progresses := by
  rintro ⟨⟨r, hr⟩, -⟩
  obtain ⟨h, hok, htr⟩ : ∃ h, readEntry backward 0 = .ok (h, 0) ∧ isTrailer h = some false :=
    exists_of_readEntry (by decide +kernel)
  have hround : ∀ hs, readRound backward (0, hs) = .again (0, hs ++ [h]) := by
    intro hs
    simp only [readRound, hok, htr, listAppend]
    exact if_pos (by decide)
  refine hr.rule (I := fun st => st.1 = 0) (Q := fun _ => False) rfl ?_ ?_
  · rintro ⟨_, hs⟩ st' rfl hb
    cases (hround hs).symm.trans hb
    rfl
  · rintro ⟨_, hs⟩ r rfl hb
    cases (hround hs).symm.trans hb

end

/-! ## What is looked at -/

/-- An archive in memory, before it is read. -/
structure Archive where
  cpio : Cpio
  headers_nil : cpio.headers = []
  size_le : cpio.size ≤ cpio.raw.rest.length

/-- The bytes one round of the loop looks at, as positions and lengths: the magic, the header, and
the start of the name where it is compared with the trailer. -/
def inspected (a : Cpio) (offset : Nat) : List (Nat × Nat) :=
  if a.size ≤ offset ∨ a.size < formatLength + headerSize then []
  else (offset, formatLength) ::
    if (a.raw.add offset).bytes? formatLength = some newAscii ∧
        (offset + headerSize) % ulongSize ≤ a.size then
      (offset, headerSize) ::
        match readEntry a offset with
        | .error _ => []
        | .ok (h, _) =>
          if trailerName.length + 1 ≤ h.nameLen then
            [(offset + headerSize, trailerName.length)] else []
    else []

/-- The name and the body of an entry, as addresses and lengths. -/
def CpioHeader.ranges (h : CpioHeader) : List (Nat × Nat) :=
  [(h.name.off, h.nameLen), (h.body.off, h.bodyLen)]

/-- The entries have no byte in common. -/
def Apart (h h' : CpioHeader) : Prop :=
  ∀ r ∈ h.ranges, ∀ r' ∈ h'.ranges, ∀ x, ¬(r.1 ≤ x ∧ x < r.1 + r.2 ∧ r'.1 ≤ x ∧ x < r'.1 + r'.2)

/-- The bytes that are looked at in any state of the loop and the entries that are returned are
inside the archive, and these entries are apart. -/
structure Archive.StaysInside (a : Archive) : Prop where
  inspected : ∀ st, a.cpio.Reached st → ∀ r ∈ inspected a.cpio st.1, r.1 + r.2 ≤ a.cpio.size
  ranges : ∀ n hs, ReadCpio a.cpio (.ok (n, hs)) → ∀ h ∈ hs, ∀ r ∈ h.ranges,
    a.cpio.raw.off ≤ r.1 ∧ r.1 + r.2 ≤ a.cpio.raw.off + a.cpio.size
  apart : ∀ n hs, ReadCpio a.cpio (.ok (n, hs)) → hs.Pairwise Apart

/-- The lengths of the entry at this offset are not carried round. -/
def NoCarry (offset : Nat) (f : Fields) : Prop :=
  f.nameLen + 1 < ulongSize ∧ offset + headerSize + nAlign f.nameLen + f.bodyLen < ulongSize

/-- There is room for what is compared: six bytes are left, and a name that is compared with the
trailer is long enough. -/
def Archive.Room (a : Archive) (offset : Nat) : Prop :=
  offset + formatLength ≤ a.cpio.size ∧ ∀ h offset', readEntry a.cpio offset = .ok (h, offset') →
    trailerName.length + 1 ≤ h.nameLen → offset + headerSize + trailerName.length ≤ a.cpio.size

/-- There is room in every state in which the loop goes on. If the archive is accepted in the end,
the lengths of the entries that are kept are not carried round. -/
structure Archive.AllRegular (a : Archive) : Prop where
  room : ∀ st, a.cpio.Reached st → st.1 < a.cpio.size → formatLength + headerSize ≤
    a.cpio.size → a.Room st.1
  noCarry : (∃ r, ReadCpio a.cpio (.ok r)) → ∀ st h offset', a.cpio.Reached st →
    st.1 < a.cpio.size →
    readEntry a.cpio st.1 = .ok (h, offset') → isTrailer h = some false → NoCarry st.1 h.toFields

variable {a : Archive} {h h' : CpioHeader} {offset offset' : Nat} {st : Nat × List CpioHeader}
  {hs : List CpioHeader}

theorem Archive.off_add_size (a : Archive) (hlt : offset < a.cpio.size) :
    a.cpio.raw.off + a.cpio.size ≤ objectMax := by
  have hlen := a.size_le
  rw [Ptr.length_rest] at hlen
  exact le_trans (by omega) a.cpio.raw.mem.2

theorem name_off (hlt : offset < a.cpio.size) (hok : readEntry a.cpio offset = .ok (h, offset')) :
    offset + headerSize ≤ a.cpio.size ∧ h.name.off = a.cpio.raw.off + offset + headerSize ∧
      h.body.off = (a.cpio.raw.off + offset + headerSize + nAlign h.nameLen) % ulongSize := by
  obtain ⟨-, -, hhdr, hparse, -⟩ := readEntry_eq_ok.1 hok
  obtain ⟨hname, hbody⟩ := parseHeader_ptrs hparse
  have hmax := a.off_add_size hlt
  rw [Nat.mod_eq_of_lt (by simp only [objectMax, headerSize, ulongSize] at *; omega)] at hhdr
  refine ⟨hhdr, ?_, ?_⟩
  · rw [hname]
    simp only [Ptr.add, objectMax, headerSize, ulongSize] at *
    omega
  · rw [hbody]
    simp only [Ptr.add, headerSize, ulongSize] at *
    omega

theorem NoCarry.ranges (hcarry : NoCarry offset h.toFields) (hlt : offset < a.cpio.size)
    (hok : readEntry a.cpio offset = .ok (h, offset')) :
    a.cpio.raw.off + offset ≤ h.name.off ∧ h.name.off + h.nameLen ≤ h.body.off ∧
      h.body.off + h.bodyLen ≤ a.cpio.raw.off + offset' ∧ offset' ≤ a.cpio.size := by
  obtain ⟨hhdr, hname, hbody⟩ := name_off hlt hok
  obtain ⟨-, -, -, -, -, hend, rfl, hle⟩ := readEntry_eq_ok.1 hok
  obtain ⟨hnameLen, hsum⟩ := hcarry
  have hmax := a.off_add_size hlt
  rw [Nat.mod_eq_of_lt hsum] at hend
  rw [Nat.mod_eq_of_lt (by simp only [objectMax, headerSize, ulongSize] at *; omega)] at hbody
  have halign : h.nameLen ≤ nAlign h.nameLen := by
    rw [nAlign, Nat.mod_eq_of_lt hnameLen]
    omega
  refine ⟨by omega, by omega, ?_, hle⟩
  rw [hbody, nextOffset]
  simp only [objectMax, headerSize, ulongSize] at *
  omega

/-! ## The loop -/

/-- The entries found so far lie one behind the other between the start of the archive and the
offset. -/
structure Archive.Laid (a : Archive) (st : Nat × List CpioHeader) : Prop where
  le_size : st.1 ≤ a.cpio.size
  within : ∀ h ∈ st.2, a.cpio.raw.off ≤ h.name.off ∧ h.name.off + h.nameLen ≤ h.body.off ∧
    h.body.off + h.bodyLen ≤ a.cpio.raw.off + st.1
  behind : st.2.Pairwise fun h h' => h.body.off + h.bodyLen ≤ h'.name.off

theorem Archive.Laid.next (hlaid : a.Laid (offset, hs)) (hcarry : NoCarry offset h.toFields)
    (hlt : offset < a.cpio.size) (hok : readEntry a.cpio offset = .ok (h, offset')) :
    a.Laid (offset', hs ++ [h]) := by
  obtain ⟨hname, hbody, hend, hle⟩ := hcarry.ranges hlt hok
  refine ⟨hle, ?_, ?_⟩
  · intro h₁ hmem
    rcases mem_append.1 hmem with hmem | hmem
    · obtain ⟨hname₁, hbody₁, hend₁⟩ := hlaid.within h₁ hmem
      exact ⟨hname₁, hbody₁, by omega⟩
    · obtain rfl := mem_singleton.1 hmem
      exact ⟨by omega, hbody, hend⟩
  · refine pairwise_append.2 ⟨hlaid.behind, pairwise_singleton _ _, ?_⟩
    intro h₁ hmem h₂ hmem₂
    obtain rfl := mem_singleton.1 hmem₂
    obtain ⟨-, -, hend₁⟩ := hlaid.within h₁ hmem
    exact hend₁.trans hname

theorem apart_of_le (h₁ : h.name.off + h.nameLen ≤ h.body.off)
    (h₂ : h.body.off + h.bodyLen ≤ h'.name.off)
    (h₃ : h'.name.off + h'.nameLen ≤ h'.body.off) : Apart h h' := by
  intro r hr r' hr' x
  simp only [CpioHeader.ranges, mem_cons, not_mem_nil, or_false] at hr hr'
  rcases hr with rfl | rfl <;> rcases hr' with rfl | rfl <;> dsimp only <;> omega

theorem Archive.Laid.apart (hlaid : a.Laid st) : st.2.Pairwise Apart :=
  hlaid.behind.imp_of_mem fun hmem hmem' hle =>
    apart_of_le (hlaid.within _ hmem).2.1 hle (hlaid.within _ hmem').2.1

theorem Archive.AllRegular.laid (hreg : a.AllRegular) (hread : ∃ r, ReadCpio a.cpio (.ok r))
    (hst : a.cpio.Reached st) : a.Laid st := by
  induction hst with
  | refl =>
    rw [a.headers_nil]
    exact ⟨Nat.zero_le _, nofun, .nil⟩
  | tail hst hround ih =>
    obtain ⟨hlt, h, offset', hok, htr, rfl⟩ := readRound_again hround
    exact ih.next (hreg.noCarry hread _ h offset' hst hlt hok htr) hlt hok

/-- The headers that are returned are those found in the last state. -/
theorem exists_last {n : Nat} (hst : a.cpio.Reached st) (hread : ReadCpio a.cpio (.ok (n, hs))) :
    ∃ st', Reaches (readRound a.cpio) st st' ∧ st'.2 = hs := by
  refine ((Reaches.returns_iff hst).1 hread).rule (I := Reaches (readRound a.cpio) st)
    (Q := fun r => ∀ p, r = .ok p → ∃ st', Reaches (readRound a.cpio) st st' ∧ st'.2 = p.2) .refl
    (fun _ _ ht hb => ht.tail hb) ?_ _ rfl
  rintro t _ ht hb p rfl
  exact ⟨t, ht, (readRound_done hb).symm⟩

theorem headers_subset {st' : Nat × List CpioHeader} (h : Reaches (readRound a.cpio) st st') :
    st.2 ⊆ st'.2 := by
  induction h with
  | refl => exact Subset.refl _
  | tail _ hround ih =>
    obtain ⟨-, h, offset', -, -, rfl⟩ := readRound_again hround
    exact Subset.trans ih (subset_append_left _ _)

theorem mem_inspected {r : Nat × Nat} (hr : r ∈ inspected a.cpio offset) :
    offset < a.cpio.size ∧ formatLength + headerSize ≤ a.cpio.size ∧ (r = (offset, formatLength) ∨
        r = (offset, headerSize) ∧ (offset + headerSize) % ulongSize ≤ a.cpio.size ∨
        ∃ h offset', readEntry a.cpio offset = .ok (h, offset') ∧ trailerName.length +
          1 ≤ h.nameLen ∧
          r = (offset + headerSize, trailerName.length)) := by
  rw [inspected] at hr
  split at hr
  · cases hr
  rename_i hgo
  rw [not_or, Nat.not_le, Nat.not_lt] at hgo
  refine ⟨hgo.1, hgo.2, ?_⟩
  rcases mem_cons.1 hr with rfl | hr
  · exact .inl rfl
  split at hr
  · rename_i hmagic
    rcases mem_cons.1 hr with rfl | hr
    · exact .inr (.inl ⟨rfl, hmagic.2⟩)
    cases hok : readEntry a.cpio offset with
    | error e =>
      rw [hok] at hr
      cases hr
    | ok e =>
      rw [hok] at hr
      dsimp only at hr
      split at hr
      · rename_i hlen
        exact .inr (.inr ⟨e.1, e.2, rfl, hlen, mem_singleton.1 hr⟩)
      · cases hr
  · cases hr

theorem magic_mem_inspected (hlt : offset < a.cpio.size)
    (hmin : formatLength + headerSize ≤ a.cpio.size) :
    (offset, formatLength) ∈ inspected a.cpio offset := by
  rw [inspected, if_neg (by omega)]
  exact mem_cons_self

theorem trailer_mem_inspected (hlt : offset < a.cpio.size)
    (hok : readEntry a.cpio offset = .ok (h, offset')) (hlen : trailerName.length + 1 ≤ h.nameLen) :
    (offset + headerSize, trailerName.length) ∈ inspected a.cpio offset := by
  obtain ⟨hmin, hmagic, hhdr, -⟩ := readEntry_eq_ok.1 hok
  rw [inspected, if_neg (by omega), if_pos ⟨hmagic, hhdr⟩, hok]
  dsimp only
  rw [if_pos hlen]
  exact mem_cons_of_mem _ (mem_cons_of_mem _ mem_cons_self)

/-- An entry whose name and body are inside the archive has lengths that are not carried round. -/
theorem noCarry_of_ranges (hlt : offset < a.cpio.size)
    (hok : readEntry a.cpio offset = .ok (h, offset'))
    (hin : ∀ r ∈ h.ranges, a.cpio.raw.off ≤ r.1 ∧ r.1 + r.2 ≤ a.cpio.raw.off + a.cpio.size) :
    NoCarry offset h.toFields := by
  obtain ⟨-, hname, hbody⟩ := name_off hlt hok
  have hnameEnd := (hin (h.name.off, h.nameLen) mem_cons_self).2
  have hbodyEnd := (hin (h.body.off, h.bodyLen) (mem_cons_of_mem _ mem_cons_self)).2
  have hmax := a.off_add_size hlt
  rw [NoCarry]
  simp only [nAlign, objectMax, headerSize, ulongSize] at *
  omega

/-- `read_cpio` stays inside its archive exactly if there is room wherever the loop goes on and,
where the archive is accepted, no length is carried round. -/
theorem staysInside_iff (a : Archive) : a.StaysInside ↔ a.AllRegular := by
  constructor
  · refine fun hin => ⟨fun st hst hlt hmin => ?_, fun ⟨r, hread⟩ st h offset' hst hlt hok htr => ?_⟩
    · exact ⟨hin.inspected st hst _ (magic_mem_inspected hlt hmin), fun h offset' hok hlen =>
        hin.inspected st hst _ (trailer_mem_inspected hlt hok hlen)⟩
    · have hround : readRound a.cpio st = .again (offset', st.2 ++ [h]) := by
        simp only [readRound, if_pos hlt, hok, htr, listAppend]
      obtain ⟨st', hst', hlast⟩ := exists_last (hst.tail hround) hread
      have hmem : h ∈ r.2 := hlast ▸ headers_subset hst' (by simp)
      exact noCarry_of_ranges hlt hok (hin.ranges _ _ hread h hmem)
  · intro hreg
    have hlaid {n : Nat} {hs : List CpioHeader} (hread : ReadCpio a.cpio (.ok (n, hs))) :
        ∃ st, a.Laid st ∧ st.2 = hs := by
      obtain ⟨st, hst, hlast⟩ := exists_last .refl hread
      exact ⟨st, hreg.laid ⟨_, hread⟩ hst, hlast⟩
    refine ⟨?_, ?_, ?_⟩
    · intro st hst r hr
      obtain ⟨hlt, hmin, hcases⟩ := mem_inspected hr
      obtain ⟨hsix, hentry⟩ := hreg.room st hst hlt hmin
      have hmax := a.off_add_size hlt
      rcases hcases with rfl | ⟨rfl, hhdr⟩ | ⟨h, offset', hok, hlen, rfl⟩
      · exact hsix
      · rw [Nat.mod_eq_of_lt (by simp only [objectMax, headerSize, ulongSize] at *; omega)] at hhdr
        exact hhdr
      · exact hentry h offset' hok hlen
    · intro n hs hread h hmem r hr
      obtain ⟨st, hlaid, rfl⟩ := hlaid hread
      obtain ⟨hname, hbody, hend⟩ := hlaid.within h hmem
      have hle := hlaid.le_size
      simp only [CpioHeader.ranges, mem_cons, not_mem_nil, or_false] at hr
      rcases hr with rfl | rfl <;> dsimp only <;> omega
    · intro n hs hread
      obtain ⟨st, hlaid, rfl⟩ := hlaid hread
      exact hlaid.apart

/-- An entry with an empty name, and four bytes behind it. -/
def stubArchive : Bytes :=
  newAscii ++ (List.replicate 88 48 ++ ([48, 48, 48, 48, 48, 48, 48, 49] ++ List.replicate 14 48))

def stub : Archive where
  cpio := Cpio.ofBuffer ⟨stubArchive, by decide⟩
  headers_nil := rfl
  size_le := by decide

/-- The four bytes are compared with the six of the magic. -/
theorem not_staysInside : ¬stub.StaysInside := by
  intro hin
  obtain ⟨h, hok, htr⟩ : ∃ h, readEntry stub.cpio 0 = .ok (h, 112) ∧ isTrailer h = some false :=
    exists_of_readEntry (by decide +kernel)
  have hround : readRound stub.cpio (0, []) = .again (112, [h]) := by
    simp only [readRound, hok, htr, listAppend]
    exact if_pos (by decide)
  have hmagic : (112, formatLength) ∈ inspected stub.cpio 112 :=
    magic_mem_inspected (by decide) (by decide)
  have hle : 112 + formatLength ≤ stub.cpio.size :=
    hin.inspected (112, [h]) (.single hround) _ hmagic
  exact absurd hle (by decide)

end MakeInitrd.Initrd
