import MakeInitrd.Initrd.CpioRoundTrip

/-!
# The end of an archive

`read_cpio` is to return the entries before the trailer. It compares only as many bytes of a name as
`TRAILER!!!` has, so a name that goes on behind them ends the archive too (`reads_entries_iff`).
-/

namespace MakeInitrd.Initrd

open CNum CMem Loop List

/-- A well-formed entry: the name length counts the name and its NUL, and every number fits its
field. -/
structure Entry.Newc (e : Entry) : Prop where
  printable : e.Printable
  nameLen : e.nameLen = e.name.length + 1

/-- A buffer with well-formed entries, the first of them named `TRAILER!!!`, and what stands behind
it. Each entry comes with the bytes that stand for it. -/
structure NewcArchive where
  parts : List (Entry × Bytes)
  trailer : Entry × Bytes
  rest : Bytes
  buf : Buffer
  parts_newc : ∀ p ∈ parts, p.1.Newc ∧ p.1.Spelled p.2 ∧ p.1.name ≠ trailerName
  trailer_newc : trailer.1.Newc ∧ trailer.1.Spelled trailer.2 ∧ trailer.1.name = trailerName
  buf_eq : buf.1 = parts.flatMap Prod.snd ++ (trailer.2 ++ rest)

def NewcArchive.entries (z : NewcArchive) : List Entry :=
  z.parts.map Prod.fst

/-- `read_cpio` returns the entries before the trailer. -/
def NewcArchive.ReadsEntries (z : NewcArchive) : Prop :=
  ∃ n hs, ReadCpio (Cpio.ofBuffer z.buf) (.ok (n, hs)) ∧ viewAll hs = some z.entries

variable {e : Entry} {z : NewcArchive}

theorem Entry.Newc.readable (h : e.Newc) : e.Readable where
  printable := h.printable
  nameLen_ne := by rw [h.nameLen]; exact Nat.succ_ne_zero _
  align := nAlign_nameLen h.printable h.nameLen

theorem Entry.Newc.isTrailer_iff (h : e.Newc) : e.IsTrailer ↔ trailerName <+: e.name := by
  refine ⟨And.right, fun hpre => ⟨?_, hpre⟩⟩
  rw [h.nameLen]
  exact Nat.succ_le_succ hpre.length_le

/-- The reader returns the entries before the first one whose name starts with that of the trailer.
-/
theorem readCpio_until {buf : Buffer} {parts : List (Entry × Bytes)} {tr : Entry} {bs t : Bytes}
    (hes : ∀ p ∈ parts, p.1.Newc ∧ p.1.Spelled p.2 ∧ ¬trailerName <+: p.1.name)
    (htr : tr.Newc ∧ tr.Spelled bs ∧ trailerName <+: tr.name)
    (hbuf : buf.1 = parts.flatMap Prod.snd ++ (bs ++ t)) :
    ∃ n hs, ReadCpio (Cpio.ofBuffer buf) (.ok (n, hs)) ∧ viewAll hs =
      some (parts.map Prod.fst) := by
  have hlayout := htr.1.readable.length_eq htr.2.1
  have hname := htr.2.2.length_le
  have halign := htr.1.readable.align
  have hsize : (parts.flatMap Prod.snd ++ bs).length + t.length = buf.1.length := by
    rw [hbuf, ← append_assoc]
    exact length_append.symm
  have hfits : 0 + (parts.flatMap Prod.snd ++ bs).length ≤ buf.1.length := by omega
  have hmin : formatLength + headerSize ≤ buf.1.length := by
    rw [length_paddedName] at halign
    rw [length_append] at hsize
    have hten : trailerName.length = 10 := rfl
    simp only [formatLength] at *
    omega
  have hrest : (Cpio.ofBuffer buf).raw.rest.drop 0 = parts.flatMap Prod.snd ++ (bs ++ t) := by
    rw [drop_zero, ← hbuf]
    rfl
  obtain ⟨hs, hviews, hret⟩ := returns_archive (a := Cpio.ofBuffer buf) hmin (Nat.le_refl _) []
    (fun p hp => ⟨(hes p hp).2.1, (hes p hp).1.readable,
      fun h => (hes p hp).2.2 ((hes p hp).1.isTrailer_iff.1 h)⟩)
    ⟨htr.2.1, htr.1.readable, htr.1.isTrailer_iff.2 htr.2.2⟩ hrest (Nat.dvd_zero 4) hfits
  exact ⟨_, hs, hret, hviews⟩

/-- The entry at which the reader stops: the first one whose name starts with that of the trailer.
-/
theorem exists_first_of_mem (he : e ∈ z.entries) (hpre : trailerName <+: e.name) :
    ∃ ps tr ps', z.parts = ps ++ tr :: ps' ∧ (∀ p ∈ ps, ¬trailerName <+: p.1.name) ∧
      trailerName <+: tr.1.name := by
  let f : Entry × Bytes → Bool := fun p => !decide (trailerName <+: p.1.name)
  have hsplit := takeWhile_append_dropWhile (p := f) (l := z.parts)
  obtain ⟨p, hp, rfl⟩ := mem_map.1 he
  cases hdrop : z.parts.dropWhile f with
  | nil =>
    have hall := dropWhile_eq_nil_iff.1 hdrop p hp
    simp [f, hpre] at hall
  | cons tr ps' =>
    rw [hdrop] at hsplit
    refine ⟨_, tr, ps', hsplit.symm, fun e' he' => ?_, ?_⟩
    · simpa [f] using mem_takeWhile_imp he'
    · simpa [f] using Span.false_of_dropWhile hdrop

theorem not_readsEntries (ps : List (Entry × Bytes)) {tr : Entry × Bytes}
    {ps' : List (Entry × Bytes)} (hsplit : z.parts = ps ++ tr :: ps')
    (hps : ∀ p ∈ ps, ¬trailerName <+: p.1.name) (htr : trailerName <+: tr.1.name) :
    ¬z.ReadsEntries := by
  rintro ⟨n, hs, hread, hview⟩
  have hnewc (p) (hp : p ∈ ps ++ tr :: ps') : p.1.Newc ∧ p.1.Spelled p.2 :=
    ⟨(z.parts_newc p (hsplit ▸ hp)).1, (z.parts_newc p (hsplit ▸ hp)).2.1⟩
  obtain ⟨hnewc', hspelled⟩ := hnewc tr (by simp)
  obtain ⟨n', hs', hread', hview'⟩ := readCpio_until
    (t := ps'.flatMap Prod.snd ++ (z.trailer.2 ++ z.rest))
    (fun p hp => ⟨(hnewc p (mem_append_left _ hp)).1, (hnewc p (mem_append_left _ hp)).2,
      hps p hp⟩)
    ⟨hnewc', hspelled, htr⟩ (by rw [z.buf_eq, hsplit]; simp)
  -- The reader returns one list, and the entries before the name are not all of them.
  cases hread.unique hread'
  have heq := Option.some.inj (hview'.symm.trans hview)
  rw [NewcArchive.entries, hsplit] at heq
  simpa using congrArg length heq

/-- The reader returns the entries before the trailer, exactly if the name of none of them starts
with that of the trailer. -/
theorem reads_entries_iff (z : NewcArchive) :
    z.ReadsEntries ↔ ∀ e ∈ z.entries, ¬trailerName <+: e.name := by
  constructor
  · intro hreads e he hpre
    obtain ⟨ps, tr, ps', hsplit, hps, htr⟩ := exists_first_of_mem he hpre
    exact not_readsEntries ps hsplit hps htr hreads
  · intro hnames
    obtain ⟨hnewc, hspelled, hname⟩ := z.trailer_newc
    exact readCpio_until (fun p hp => ⟨(z.parts_newc p hp).1, (z.parts_newc p hp).2.1,
        hnames p.1 (mem_map_of_mem hp)⟩)
      ⟨hnewc, hspelled, hname ▸ prefix_rfl⟩ z.buf_eq

/-- An empty entry named `TRAILER!!!x`. -/
def lookalike : Entry :=
  { sampleFields 0o100644 1 0 with
    nameLen := 12
    name := trailerName ++ [120]
    body := []
    name_nul := by decide
    body_length := length_nil }

theorem newc_lookalike : lookalike.Newc := ⟨by decide +kernel, by decide⟩

theorem newc_trailerEntry : trailerEntry.Newc := ⟨by decide +kernel, by decide⟩

def lookalikeArchive : NewcArchive where
  parts := [(lookalike, layout lookalike)]
  trailer := (trailerEntry, layout trailerEntry)
  rest := []
  buf := ⟨layout lookalike ++ layout trailerEntry, by decide +kernel⟩
  parts_newc := by
    intro p hp
    obtain rfl := mem_singleton.1 hp
    exact ⟨newc_lookalike, newc_lookalike.readable.spelled, by decide⟩
  trailer_newc := ⟨newc_trailerEntry, newc_trailerEntry.readable.spelled, by decide⟩
  buf_eq := by simp

/-- It reads as an empty archive. -/
theorem not_reads_entries : ¬lookalikeArchive.ReadsEntries :=
  not_readsEntries [] rfl (by simp) (by decide)

end MakeInitrd.Initrd
