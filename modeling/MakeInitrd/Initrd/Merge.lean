import MakeInitrd.Initrd.Image

/-!
# Merging the archives of an image

Without `--archive`, `initrd-extract` writes the entries of all archives one after the other and one
trailer (`extract_archives`). The inode numbers are copied as they are, so what they say about hard
links is only right if no number is used in two archives (`extract_hardLinks_iff`). The output is an
image that `initrd-extract` leaves as it is (`extract_idempotent`).
-/

namespace MakeInitrd.Initrd

open CNum CMem Loop List

/-- What the archives of an image show; a bootconfig is no archive. -/
def viewCpios (cpios : List Cpio) : Option (List (List Entry)) :=
  (cpios.filter fun c => c.type = .archive).mapM fun c => viewAll c.headers

section

variable {cpios : List Cpio} {ess : List (List Entry)} {offset : Nat}

theorem viewCpios_cons_archive {c : Cpio} (hc : c.type = .archive) :
    viewCpios (c :: cpios) = some ess ↔
      ∃ es ess', viewAll c.headers = some es ∧ viewCpios cpios = some ess' ∧ ess = es :: ess' := by
  simp only [viewCpios, filter_cons, hc, decide_true, if_true, mapM_cons,
    Option.bind_eq_bind, Option.bind_eq_some_iff, Option.pure_def, Option.some.injEq]
  grind

theorem viewCpios_cons_other {c : Cpio} (hc : c.type ≠ .archive) :
    viewCpios (c :: cpios) = viewCpios cpios := by
  simp only [viewCpios, filter_cons, hc, decide_false, Bool.false_eq_true, if_false]

/-- The archives are written one behind the other. -/
theorem extractCpios_eq (hview : viewCpios cpios = some ess)
    (he : ∀ es ∈ ess, ∀ e ∈ es, e.Encodable) (ho : 4 ∣ offset) (c : Nat) :
    extractCpios 0 cpios c (offset % ulongSize) = some (ess.flatten.flatMap layout,
        (offset + (ess.flatten.flatMap layout).length) % ulongSize) := by
  induction cpios generalizing ess offset c with
  | nil =>
    cases hview
    rfl
  | cons l ls ih =>
    rw [extractCpios]
    by_cases hl : l.type = .archive
    · obtain ⟨es, ess, hes, hess, rfl⟩ := (viewCpios_cons_archive hl).1 hview
      have hes' : ∀ e ∈ es, e.Encodable := he es mem_cons_self
      have hdvd : 4 ∣ (es.flatMap layout).length := by
        rw [length_flatMap]
        refine dvd_sum fun n hn => ?_
        obtain ⟨e, hmem, rfl⟩ := mem_map.1 hn
        exact (hes' e hmem).dvd_length_layout
      have hrest := ih hess (fun es h => he es (mem_cons_of_mem _ h)) (Nat.dvd_add ho hdvd) (c + 1)
      simp only [hl, ne_eq, not_true_eq_false, if_false, true_or, if_true,
        writeHeaders_eq hes hes' ho, hrest, Option.bind_eq_bind, Option.bind_some, flatten_cons,
        flatMap_append, length_append, Nat.add_assoc]
    · rw [if_pos hl]
      exact ih (viewCpios_cons_other hl ▸ hview) he ho (c + 1)

theorem extract_archives (hview : viewCpios cpios = some ess)
    (he : ∀ es ∈ ess, ∀ e ∈ es, e.Encodable) : extract 0 cpios = some (archive ess.flatten) := by
  have hall := extractCpios_eq hview he (Nat.dvd_zero 4) 1
  rw [Nat.zero_mod, Nat.zero_add] at hall
  simp only [extract, hall, writeTrailer_eq, Option.bind_eq_bind, Option.bind_some, archive,
    length_append, append_assoc]

theorem readCpio_archives (he : ∀ es ∈ ess, ∀ e ∈ es, e.Encodable ∧ ¬e.IsTrailer)
    (hmax : (archive ess.flatten).length ≤ objectMax) :
    ∃ hs, ReadCpio (Cpio.ofBuffer ⟨_, hmax⟩) (.ok ((archive ess.flatten).length, hs)) ∧
      viewAll hs = some ess.flatten := by
  have hflat : ∀ e ∈ ess.flatten, e.Encodable ∧ ¬e.IsTrailer := by
    intro e hmem
    obtain ⟨es, hes, hmem⟩ := mem_flatten.1 hmem
    exact he es hes e hmem
  obtain ⟨hs, hviews, hread⟩ := readCpio_archive (a := Cpio.ofBuffer ⟨_, hmax⟩) hflat
    (append_nil _).symm (Nat.le_refl _) (Nat.le_refl _) rfl
  exact ⟨hs, hread, hviews⟩

end

/-! ## Hard links -/

/-- The identity of an inode inside one archive. -/
def Fields.inode (f : Fields) : Nat × Nat × Nat :=
  (f.ino, f.major, f.minor)

/-- An entry that may be one of several names: not a directory, with more than one link. -/
def Fields.Linked (f : Fields) : Prop :=
  f.mode &&& 0o170000 ≠ 0o040000 ∧ 2 ≤ f.nlink

/-- The entries of all archives in order, each with the number of its archive. -/
def origins (ess : List (List Entry)) : List (Nat × Entry) :=
  ess.zipIdx.flatMap fun (es, a) => es.map fun e => (a, e)

/-- The merged entries `out` tell the hard links of the archives: two names share an inode exactly
when they came from one archive and shared it there. -/
def KeepsHardLinks (ess : List (List Entry)) (out : List Entry) : Prop :=
  out.length = (origins ess).length ∧ ∀ (i j : Nat) (o o' : Nat × Entry) (e e' : Entry),
    (origins ess)[i]? = some o → (origins ess)[j]? = some o' → out[i]? = some e →
    out[j]? = some e' → e.Linked → e'.Linked →
      (e.inode = e'.inode ↔ o.1 = o'.1 ∧ o.2.inode = o'.2.inode)

/-- No two archives use one inode for entries that may have several names. -/
def InodesApart (ess : List (List Entry)) : Prop :=
  ∀ (a a' : Nat) (es es' : List Entry), ess[a]? = some es → ess[a']? = some es' → a ≠ a' →
    ∀ e ∈ es, ∀ e' ∈ es', e.Linked → e'.Linked → e.inode ≠ e'.inode

section

variable {ess : List (List Entry)}

theorem mem_origins {o : Nat × Entry} : o ∈ origins ess ↔ ∃ es, ess[o.1]? = some es ∧ o.2 ∈ es := by
  obtain ⟨a, e⟩ := o
  simp only [origins, mem_flatMap, mem_map, Prod.exists, Prod.mk.injEq, mem_zipIdx_iff_getElem?]
  constructor
  · rintro ⟨es, a', hes, e', he, rfl, rfl⟩
    exact ⟨es, hes, he⟩
  · rintro ⟨es, hes, he⟩
    exact ⟨es, a, hes, e, he, rfl, rfl⟩

theorem map_snd_origins : (origins ess).map Prod.snd = ess.flatten := by
  simp only [origins, map_flatMap, map_map, Function.comp_def, map_id']
  rw [flatMap_def]
  exact congrArg flatten (zipIdx_map_fst 0 ess)

/-- Hard links are kept if and only if no two archives share an inode. -/
theorem keepsHardLinks_iff : KeepsHardLinks ess ess.flatten ↔ InodesApart ess := by
  have hlen : ess.flatten.length = (origins ess).length := by
    rw [← map_snd_origins, length_map]
  have hget {i : Nat} {o : Nat × Entry} (ho : (origins ess)[i]? = some o) :
      ess.flatten[i]? = some o.2 := by
    rw [← map_snd_origins, getElem?_map, ho]
    rfl
  constructor
  · rintro ⟨-, h⟩ a a' es es' hes hes' hne e he e' he' hl hl' heq
    obtain ⟨i, hi⟩ := mem_iff_getElem?.1 (mem_origins.2 ⟨es, hes, he⟩ : (a, e) ∈ origins ess)
    obtain ⟨j, hj⟩ :=
      mem_iff_getElem?.1 (mem_origins.2 ⟨es', hes', he'⟩ : (a', e') ∈ origins ess)
    exact hne ((h i j _ _ e e' hi hj (hget hi) (hget hj) hl hl').1 heq).1
  · refine fun h => ⟨hlen, fun i j o o' e e' hi hj he he' hl hl' => ?_⟩
    cases (hget hi).symm.trans he
    cases (hget hj).symm.trans he'
    refine ⟨fun heq => ⟨?_, heq⟩, fun hboth => hboth.2⟩
    by_contra hne
    obtain ⟨es, hes, hmem⟩ := mem_origins.1 (mem_of_getElem? hi)
    obtain ⟨es', hes', hmem'⟩ := mem_origins.1 (mem_of_getElem? hj)
    exact h _ _ es es' hes hes' hne _ hmem _ hmem' hl hl' heq

/-- What `initrd-extract` writes for several archives is read back as their entries, and tells their
hard links exactly when their inodes are apart. -/
theorem extract_hardLinks_iff (cpios : List Cpio) (ess : List (List Entry))
    (hview : viewCpios cpios = some ess) (he : ∀ es ∈ ess, ∀ e ∈ es, e.Encodable ∧ ¬e.IsTrailer) :
    ∃ out, extract 0 cpios = some out ∧ ∀ hmax : out.length ≤ objectMax, ∃ hs es,
      ReadCpio (Cpio.ofBuffer ⟨out, hmax⟩) (.ok (out.length, hs)) ∧ viewAll hs = some es ∧
        (KeepsHardLinks ess es ↔ InodesApart ess) := by
  refine ⟨_, extract_archives hview fun es hes e hmem => (he es hes e hmem).1, fun hmax => ?_⟩
  obtain ⟨hs, hread, hviews⟩ := readCpio_archives he hmax
  exact ⟨hs, _, hread, hviews, keepsHardLinks_iff⟩

/-- An archive of one empty file with two links, `f` in the inode `ino`. -/
def linkCpio (ino : Nat) : Cpio where
  type := .archive
  compress := some .raw
  raw := ⟨⟨[], length_nil_le⟩, 0⟩
  size := 0
  headers := [{ sampleFields 0o100644 2 0 with
    ino := ino
    name := ⟨⟨[102, 0], length_sampleName_le⟩, 0⟩
    body := ⟨⟨[], length_nil_le⟩, 0⟩ }]

/-- The entry of that archive. -/
def linkEntry (ino : Nat) : Entry :=
  { sampleFields 0o100644 2 0 with
    ino := ino
    name := [102]
    body := []
    name_nul := nul_notMem_sampleName
    body_length := List.length_nil }

theorem linkEntry_encodable {ino : Nat} (h : ino = 11 ∨ ino = 12) :
    (linkEntry ino).Encodable ∧ ¬(linkEntry ino).IsTrailer := by
  rcases h with rfl | rfl
  · exact ⟨⟨by decide, by decide, by decide, by decide⟩, fun htr => absurd htr.1 (by decide)⟩
  · exact ⟨⟨by decide, by decide, by decide, by decide⟩, fun htr => absurd htr.1 (by decide)⟩

theorem linkEntries_encodable {ino ino' : Nat} (h : ino = 11 ∨ ino = 12)
    (h' : ino' = 11 ∨ ino' = 12) :
    ∀ es ∈ [[linkEntry ino], [linkEntry ino']], ∀ e ∈ es, e.Encodable ∧ ¬e.IsTrailer := by
  intro es hes e he
  rcases mem_cons.1 hes with rfl | hes
  · rw [mem_singleton.1 he]
    exact linkEntry_encodable h
  · rw [mem_singleton.1 hes] at he
    rw [mem_singleton.1 he]
    exact linkEntry_encodable h'

/-- Two archives with inodes of their own. -/
theorem extract_hardLinks_iff_apart : ∃ out, extract 0 [linkCpio 11, linkCpio 12] = some out ∧
      ∀ hmax : out.length ≤ objectMax, ∃ hs es,
        ReadCpio (Cpio.ofBuffer ⟨out, hmax⟩) (.ok (out.length, hs)) ∧ viewAll hs = some es ∧
          KeepsHardLinks [[linkEntry 11], [linkEntry 12]] es := by
  have hapart : InodesApart [[linkEntry 11], [linkEntry 12]] := by
    intro a a' es es' hes hes' hne e he e' he' _ _
    match a, a' with
    | 0, 0 | 1, 1 => exact absurd rfl hne
    | 0, 1 =>
      cases hes
      cases hes'
      rw [mem_singleton.1 he, mem_singleton.1 he']
      decide
    | 1, 0 =>
      cases hes
      cases hes'
      rw [mem_singleton.1 he, mem_singleton.1 he']
      decide
    | a + 2, _ => cases hes
    | _, a' + 2 => cases hes'
  obtain ⟨out, hout, hread⟩ := extract_hardLinks_iff [linkCpio 11, linkCpio 12]
    [[linkEntry 11], [linkEntry 12]] (by decide) (linkEntries_encodable (.inl rfl) (.inr rfl))
  refine ⟨out, hout, fun hmax => ?_⟩
  obtain ⟨hs, es, hret, hviews, hiff⟩ := hread hmax
  exact ⟨hs, es, hret, hviews, hiff.2 hapart⟩

/-- Two archives that both use the inode 11: in the output their files are one file. -/
theorem not_extract_hardLinks : ∃ out, extract 0 [linkCpio 11, linkCpio 11] = some out ∧
      ∃ hmax hs es, ReadCpio (Cpio.ofBuffer ⟨out, hmax⟩) (.ok (out.length, hs)) ∧
        viewAll hs = some es ∧ ¬KeepsHardLinks [[linkEntry 11], [linkEntry 11]] es := by
  have he := linkEntries_encodable (.inl rfl : 11 = 11 ∨ 11 = 12) (.inl rfl : 11 = 11 ∨ 11 = 12)
  have hmax : (archive [[linkEntry 11], [linkEntry 11]].flatten).length ≤ objectMax := by
    decide +kernel
  obtain ⟨hs, hread, hviews⟩ := readCpio_archives he hmax
  refine ⟨_, extract_archives (by decide) fun es hes e hmem => (he es hes e hmem).1, hmax, hs, _,
    hread, hviews, fun hkeeps => ?_⟩
  have hone := (hkeeps.2 0 1 (0, linkEntry 11) (1, linkEntry 11) _ _ rfl rfl rfl rfl
    (by unfold Fields.Linked; decide) (by unfold Fields.Linked; decide)).1 rfl
  cases hone.1

end

/-! ## The output as an image -/

/-- The trailer's name ends in four zeros, so nothing at the end of an archive is taken for a
bootconfig. -/
theorem noMagicAtEnd_archive (es : List Entry) : NoMagicAtEnd (archive es) := by
  have hlen : bootconfigMagic.length + 3 ≤ (archive es).length :=
    .trans (by decide) (le_length_archive es)
  obtain ⟨xs, hxs⟩ : ∃ xs, archive es = xs ++ zeros 4 := by
    have htrailer : layout trailerEntry = (layout trailerEntry).take 120 ++ zeros 4 := by
      decide +kernel
    rw [archive, htrailer, ← append_assoc, append_assoc _ (zeros 4), ← replicate_add, Nat.add_comm,
      replicate_add, ← append_assoc]
    exact ⟨_, rfl⟩
  rw [hxs, length_append, length_replicate] at hlen
  rw [hxs, NoMagicAtEnd, length_append, length_replicate]
  refine ⟨hlen, fun i hi heq => ?_⟩
  -- the newline of the magic would be one of the zeros
  have hlast : (xs ++ zeros 4)[xs.length + 4 - 12 - i + 11]? = bootconfigMagic[11]? := by
    rw [← heq, window, getElem?_take_of_lt (by decide), getElem?_drop]
    rfl
  change 12 + 3 ≤ _ at hlen
  rw [getElem?_append_right (by omega), getElem?_replicate, if_pos (by omega)] at hlast
  cases hlast

theorem readStream_segments {env : Env} {ps : List Part} (image : Buffer)
    (hsegs : Segments env .raw image.1 ps) (hend : NoMagicAtEnd image.1) :
    ∃ fuel cs, readStream env fuel .raw ⟨image, 0⟩ image.1.length = some (.ok cs) ∧
      parts cs = some ps := by
  obtain ⟨hlen, hno⟩ := hend
  have hrest : (Ptr.mk image 0).rest.drop 0 = image.1 ++ [] := (append_nil _).symm
  obtain ⟨fuel, cs, hloop, hparts⟩ := streamLoop_segments hsegs hrest (Nat.zero_add _).symm
    (Nat.le_refl _) []
  refine ⟨fuel, cs, ?_, hparts⟩
  rw [readStream, Ptr.add_mk (Nat.zero_add _).le, Nat.zero_add, Ptr.sub_mk (by omega),
    findMagic_eq_none (by omega) (by omega) hno]
  exact hloop

def Part.entries : Part → List Entry
  | .archive _ es => es
  | .bootconfig _ => []

theorem viewCpios_of_parts {cs : List Cpio} {ps : List Part} (h : parts cs = some ps) :
    ∃ ess, viewCpios cs = some ess ∧ ess.flatten = ps.flatMap Part.entries := by
  induction cs generalizing ps with
  | nil =>
    cases h
    exact ⟨[], rfl, rfl⟩
  | cons c cs ih =>
    obtain ⟨p, hp, ps, hps, rfl⟩ :
        ∃ p, c.part = some p ∧ ∃ ps', parts cs = some ps' ∧ p :: ps' = ps := by
      simpa [parts, mapM_cons, Option.bind_eq_some_iff] using h
    obtain ⟨ess, hview, hess⟩ := ih hps
    cases htype : c.type <;>
      simp only [Cpio.part, htype, Option.bind_eq_bind, Option.bind_eq_some_iff,
      Option.map_eq_some_iff, reduceCtorEq] at hp
    · obtain ⟨label, -, es, hes, hp⟩ := hp
      cases hp
      exact ⟨es :: ess, (viewCpios_cons_archive htype).2 ⟨es, ess, hes, hview, rfl⟩,
        congrArg (es ++ ·) hess⟩
    · obtain ⟨payload, -, rfl⟩ := hp
      exact ⟨ess, (viewCpios_cons_other (by simp [htype])).trans hview, hess⟩

/-- As an image, these bytes are one archive with these entries, and extracting it gives the same
bytes. -/
def ExtractsBack (env : Env) (es : List Entry) (out : Bytes) : Prop :=
  ∀ hmax : out.length ≤ objectMax, ∃ fuel cs,
    readStream env fuel .raw ⟨⟨out, hmax⟩, 0⟩ out.length = some (.ok cs) ∧
      parts cs = some [.archive .raw es] ∧ extract 0 cs = some out

/-- What `initrd-extract` writes for an image is a fixed point of it. -/
theorem extract_idempotent (env : Env) (cpios : List Cpio) (ps : List Part)
    (hparts : parts cpios = some ps) (hwf : ∀ e ∈ ps.flatMap Part.entries, e.WellFormed) :
    ∃ out, extract 0 cpios = some out ∧ ExtractsBack env (ps.flatMap Part.entries) out := by
  have hout {cs : List Cpio} {qs : List Part} (hqs : parts cs = some qs)
      (heq : qs.flatMap Part.entries = ps.flatMap Part.entries) :
      extract 0 cs = some (archive (ps.flatMap Part.entries)) := by
    obtain ⟨ess, hview, hess⟩ := viewCpios_of_parts hqs
    rw [extract_archives hview fun es hes e he => (hwf e ?_).encodable, hess, heq]
    exact heq ▸ hess ▸ mem_flatten.2 ⟨es, hes, he⟩
  refine ⟨_, hout hparts rfl, fun hmax => ?_⟩
  have hsegs : Segments env .raw (archive (ps.flatMap Part.entries) ++ []) [.archive .raw _] :=
    .archive hwf .nil
  rw [append_nil] at hsegs
  obtain ⟨fuel, cs, hread, hqs⟩ := readStream_segments ⟨_, hmax⟩ hsegs (noMagicAtEnd_archive _)
  exact ⟨fuel, cs, hread, hqs, hout hqs (append_nil _)⟩

/-- A file and a directory, and a bootconfig. -/
theorem extract_idempotent_sample :
    ∃ out, extract 0
      [{ Cpio.ofBuffer emptyArchive with compress := some .gzip, headers := sampleHeaders },
        bootconfigCpio ⟨emptyArchive, 0⟩ 3] = some out ∧
      ExtractsBack sampleEnv sampleEntries out :=
  extract_idempotent sampleEnv _ [.archive .gzip sampleEntries, .bootconfig [48, 55, 48]]
    (by decide +kernel)
    sampleEntries_wellFormed

end MakeInitrd.Initrd
