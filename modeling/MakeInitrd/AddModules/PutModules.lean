import MakeInitrd.Lib.Glob
import MakeInitrd.Lib.Words

/-!
# Putting modules into the image

The script `put-modules` asks `depinfo` for the files of the modules that are requested, and again
for those that the scripts of `kmodule.deps.d` add, until there are no more. What the other programs
print in the rounds of the loop is given (`Round`).

The names of the blacklist are written with underscores, but the main loop compares the name of a
file as it is. So a file with a dash in its name is never found in the blacklist
(`blacklist_effective_iff`).
-/

namespace MakeInitrd.AddModules

open CMem Words Glob Span List

/-- `normalize_modname` -/
def normalizeModname (x : Bytes) : Bytes := x.map fun c => if c = 45 then 95 else c

/-- `blacklist`, from the value of `BLACKLIST_MODULES`; the newlines that the substitution drops at
the end only separate words. -/
def blacklist (blacklistModules : Bytes) : Bytes :=
  if blacklistModules = [] then [] else normalizeModname blacklistModules

/-- `in_blacklist` -/
def inBlacklist (bl f : Bytes) : Bool := (words bl).any fun m => f = m

/-- `x="${path##*/}"` and `"${x%.ko*}"` -/
def modname (path : Bytes) : Bytes :=
  percent (parse (text ".ko*")) (hashHash (parse (text "*/")) path)

/-! ## The loop -/

/-- `read -r keyword path` -/
def readLine (line : Bytes) : Bytes × Bytes :=
  let s := line.dropWhile isBlank
  let rest := (s.dropWhile fun c => !isBlank c).dropWhile isBlank
  (s.takeWhile fun c => !isBlank c, (rest.reverse.dropWhile isBlank).reverse)

/-! The keywords of a line; the last one, `builtin`, is only reported. -/

def kwModule : Bytes := text "module"

def kwFirmware : Bytes := text "firmware"

def kwMissing : Bytes := text "missing-firmware"

/-- A line with a name and a path: `printf '%s\t%s\n'` -/
def entry (name path : Bytes) : Bytes := name ++ 9 :: path

/-- `cut -f2-` -/
def cut (line : Bytes) : Bytes :=
  if 9 ∈ line then (line.dropWhile (· ≠ 9)).tail else line

/-- The variable `module` and the files `more-modules`, `firmwares` and `missing-firmwares` -/
structure Files where
  module : Bytes
  more : List Bytes
  firmwares : List Bytes
  missing : List Bytes

/-- One round of the loop that reads the output of `depinfo` -/
def readModule (bl : Bytes) (fs : Files) (line : Bytes) : Files :=
  let (keyword, path) := readLine line
  let name := modname path
  if inBlacklist bl name then fs
  else if keyword = kwModule then { fs with module := name, more := fs.more ++ [entry name path] }
  else if keyword = kwFirmware then
    { fs with firmwares := fs.firmwares ++ [entry (text "none") path] }
  else if keyword = kwMissing then { fs with missing := fs.missing ++ [entry fs.module path] }
  else fs

/-- One round of the main loop as the other programs make it: what `depinfo` prints, whether it
succeeds for the required modules, and what the scripts of `kmodule.deps.d` print -/
structure Round where
  depinfo : List Bytes
  ok : Bool
  optional : List Bytes

/-- The files `modules`, `firmwares` and `missing-firmwares` -/
structure Output where
  modules : List Bytes
  firmwares : List Bytes
  missing : List Bytes

/-- The main loop, where `pending` says whether modules are left to ask for; there is no output if
the script fails or the rounds are not those of a whole run. -/
def mainLoop (bl : Bytes) : List Round → Bool → Output → Option Output
  | [], pending, out => if pending then none else some out
  | r :: rs, pending, out =>
    if pending && r.ok then
      let fs := r.depinfo.foldl (readModule bl) ⟨[], [], out.firmwares, out.missing⟩
      if fs.more = [] then if rs.isEmpty then some ⟨out.modules, fs.firmwares, fs.missing⟩ else none
      else mainLoop bl rs (r.optional ≠ []) ⟨out.modules ++ sortUniq fs.more,
        fs.firmwares, fs.missing⟩
    else none

/-- `load_modules`: what is added to the list of modules to load -/
def loadModules (bl : Bytes) (names : List Bytes) : List Bytes :=
  names.filter fun n => !inBlacklist bl (normalizeModname (modname n))

/-- What the script leaves: the files for `put-file`, and the modules to load before and after
`udev` -/
structure Result where
  files : List Bytes
  preudev : List Bytes
  postudev : List Bytes
deriving DecidableEq, Repr

/-- The script, where `required` and `optional` are what `find_modules` and `initrd-scanmod` print
-/
def putModules (blacklistModules : Bytes) (required optional preload load : List Bytes)
    (rounds : List Round) :
    Option Result :=
  let bl := blacklist blacklistModules
  (mainLoop bl rounds (required ≠ [] || optional ≠ []) ⟨[], [], []⟩).map fun out =>
    { files := sortUniq ((out.firmwares ++ out.modules).map cut)
      preudev := sortUniq (loadModules bl preload)
      postudev := sortUniq (loadModules bl load) }

/-- The module has a name of `BLACKLIST_MODULES`, up to dashes and underscores. -/
def Blacklisted (blacklistModules name : Bytes) : Prop :=
  ∃ b ∈ words blacklistModules, normalizeModname name = normalizeModname b

/-- The paths of the modules that `depinfo` prints -/
def moduleFiles (rounds : List Round) : List Bytes :=
  rounds.flatMap fun r => (r.depinfo.filter fun l => (readLine l).1 = kwModule).map fun l =>
    (readLine l).2

/-- No blacklisted module is among the files or the modules to load. -/
structure Effective (blacklistModules : Bytes) (rounds : List Round) (res : Result) : Prop where
  files : ∀ f ∈ res.files, f ∈ moduleFiles rounds → ¬Blacklisted blacklistModules (modname f)
  preudev : ∀ n ∈ res.preudev, ¬Blacklisted blacklistModules (modname n)
  postudev : ∀ n ∈ res.postudev, ¬Blacklisted blacklistModules (modname n)

/-! ## The blacklist -/

variable {blacklistModules bl : Bytes}

theorem not_mem_normalizeModname (x : Bytes) : 45 ∉ normalizeModname x := by
  intro h
  obtain ⟨c, -, hc⟩ := mem_map.1 h
  split_ifs at hc with hdash
  · cases hc
  · exact hdash hc

theorem normalizeModname_of_not_mem {x : Bytes} (h : 45 ∉ x) : normalizeModname x = x := by
  refine (map_congr_left fun c hc => ?_).trans (map_id' x)
  refine if_neg fun hdash => h ?_
  rw [← hdash]
  exact hc

theorem words_blacklist :
    words (blacklist blacklistModules) = (words blacklistModules).map normalizeModname := by
  rw [blacklist]
  split_ifs with hempty
  · rw [hempty]
    rfl
  · refine words_map (fun c => ?_) blacklistModules
    split_ifs with hdash
    · rw [hdash]
      rfl
    · rfl

theorem inBlacklist_iff {f : Bytes} :
    inBlacklist (blacklist blacklistModules) f = true ↔ ∃ b ∈ words blacklistModules,
      f = normalizeModname b := by
  simp only [inBlacklist, words_blacklist, any_map, any_eq_true, Function.comp_apply,
    decide_eq_true_eq]

theorem inBlacklist_normalizeModname {f : Bytes} :
    inBlacklist (blacklist blacklistModules) (normalizeModname f) = true ↔
      Blacklisted blacklistModules f :=
  inBlacklist_iff

theorem inBlacklist_iff_blacklisted {f : Bytes} :
    inBlacklist (blacklist blacklistModules) f = true ↔
      Blacklisted blacklistModules f ∧ 45 ∉ f := by
  rw [inBlacklist_iff]
  constructor
  · rintro ⟨b, hb, rfl⟩
    have hdash := not_mem_normalizeModname b
    exact ⟨⟨b, hb, normalizeModname_of_not_mem hdash⟩, hdash⟩
  · rintro ⟨⟨b, hb, heq⟩, hdash⟩
    exact ⟨b, hb, by rw [← heq, normalizeModname_of_not_mem hdash]⟩

theorem loadModules_effective {names : List Bytes} :
    ∀ n ∈ sortUniq (loadModules (blacklist blacklistModules) names),
      ¬Blacklisted blacklistModules (modname n) := by
  intro n hn
  rw [mem_sortUniq, loadModules, mem_filter, Bool.not_eq_true', ← Bool.not_eq_true,
    inBlacklist_normalizeModname] at hn
  exact hn.2

/-! ## What the loop writes -/

/-- A line of the files `modules` and `firmwares` is made from a path whose name is not in the
blacklist as it is. -/
def Made (bl x : Bytes) : Prop :=
  ∃ p, inBlacklist bl (modname p) = false ∧ (x = entry (modname p) p ∨ x = entry (text "none") p)

/-- The line of a module whose name is not in the blacklist as it is -/
def Passes (bl line : Bytes) : Prop :=
  (readLine line).1 = kwModule ∧ inBlacklist bl (modname (readLine line).2) = false

section
variable {fs : Files} {l : Bytes} {x : Bytes}

theorem mem_readModule_more (h : x ∈ (readModule bl fs l).more) : x ∈ fs.more ∨ Made bl x := by
  simp only [readModule] at h
  split_ifs at h with hbl hkw
  all_goals try exact .inl h
  rw [mem_append, mem_singleton] at h
  exact h.imp_right fun h => ⟨_, Bool.eq_false_iff.2 hbl, .inl h⟩

theorem mem_readModule_firmwares (h : x ∈ (readModule bl fs l).firmwares) :
    x ∈ fs.firmwares ∨ Made bl x := by
  simp only [readModule] at h
  split_ifs at h with hbl hkw hfw
  all_goals try exact .inl h
  rw [mem_append, mem_singleton] at h
  exact h.imp_right fun h => ⟨_, Bool.eq_false_iff.2 hbl, .inr h⟩

theorem readModule_more_mono : fs.more ⊆ (readModule bl fs l).more := by
  simp only [readModule]
  split_ifs
  all_goals first | exact subset_append_left _ _ | exact List.Subset.refl _

theorem readModule_passes (h : Passes bl l) :
    entry (modname (readLine l).2) (readLine l).2 ∈ (readModule bl fs l).more := by
  simp only [readModule, h.1, h.2, Bool.false_eq_true, if_false, if_true]
  exact mem_append_right _ (mem_singleton_self _)

end

theorem readModules_spec (bl : Bytes) (lines : List Bytes) (fs : Files) :
    (∀ x ∈ (lines.foldl (readModule bl) fs).more, x ∈ fs.more ∨ Made bl x) ∧
      (∀ x ∈ (lines.foldl (readModule bl) fs).firmwares, x ∈ fs.firmwares ∨ Made bl x) ∧
      fs.more ⊆ (lines.foldl (readModule bl) fs).more ∧
      ∀ l ∈ lines, Passes bl l →
        entry (modname (readLine l).2) (readLine l).2 ∈ (lines.foldl (readModule bl) fs).more := by
  induction lines generalizing fs with
  | nil => exact ⟨fun x => .inl, fun x => .inl, List.Subset.refl _, by simp⟩
  | cons l lines ih =>
    obtain ⟨hmore, hfirm, hmono, hpass⟩ := ih (readModule bl fs l)
    refine ⟨fun x hx => ?_, fun x hx => ?_, List.Subset.trans readModule_more_mono hmono, ?_⟩
    · exact (hmore x hx).elim mem_readModule_more .inr
    · exact (hfirm x hx).elim mem_readModule_firmwares .inr
    · rintro l' (_ | ⟨_, hl'⟩) hpasses
      · exact hmono (readModule_passes hpasses)
      · exact hpass l' hl' hpasses

/-- What the rounds of the main loop have printed -/
theorem mainLoop_spec {rounds : List Round} {pending : Bool} {out out' : Output}
    (h : mainLoop bl rounds pending out = some out') :
    (∀ x ∈ out'.firmwares ++ out'.modules, x ∈ out.firmwares ++ out.modules ∨ Made bl x) ∧
      out.modules ⊆ out'.modules ∧
      ∀ r ∈ rounds, ∀ l ∈ r.depinfo, Passes bl l → entry (modname (readLine l).2) (readLine l).2 ∈
        out'.modules := by
  induction rounds generalizing pending out with
  | nil =>
    rw [mainLoop] at h
    split_ifs at h
    cases h
    exact ⟨fun x => .inl, List.Subset.refl _, by simp⟩
  | cons r rs ih =>
    obtain ⟨hmore, hfirm, -, hpass⟩ :=
      readModules_spec bl r.depinfo ⟨[], [], out.firmwares, out.missing⟩
    simp only [mainLoop] at h
    split_ifs at h with hrun hempty hrs
    · -- No module passes in the round that ends the loop.
      cases h
      obtain rfl := isEmpty_iff.1 hrs
      refine ⟨fun x hx => ?_, List.Subset.refl _, ?_⟩
      · rcases mem_append.1 hx with hx | hx
        · exact (hfirm x hx).imp_left (mem_append_left _)
        · exact .inl (mem_append_right _ hx)
      · intro r' hr' l hl hpasses
        obtain rfl := mem_singleton.1 hr'
        have := hpass l hl hpasses
        rw [hempty] at this
        cases this
    · obtain ⟨hmade, hmono, hall⟩ := ih h
      refine ⟨fun x hx => ?_, fun x hx => hmono (mem_append_left _ hx), ?_⟩
      · rcases hmade x hx with hx | hx
        · rcases mem_append.1 hx with hx | hx
          · exact (hfirm x hx).imp_left (mem_append_left _)
          · rcases mem_append.1 hx with hx | hx
            · exact .inl (mem_append_right _ hx)
            · exact .inr ((hmore x (mem_sortUniq.1 hx)).resolve_left (by simp))
        · exact .inr hx
      · rintro r' (_ | ⟨_, hr'⟩) l hl hpasses
        · exact hmono (mem_append_right _ (mem_sortUniq.2 (hpass l hl hpasses)))
        · exact hall r' hr' l hl hpasses

/-! ## Names with a tab -/

theorem cut_entry {n : Bytes} (p : Bytes) (hn : 9 ∉ n) : cut (entry n p) = p := by
  rw [cut, entry, if_pos (by simp), dropWhile_stop _ (by simp)]
  · rfl
  · intro c hc
    simpa using fun h : c = 9 => hn (h ▸ hc)

theorem Blacklisted.not_mem_tab {name : Bytes} (h : Blacklisted blacklistModules name) :
    9 ∉ name := by
  obtain ⟨b, hb, heq⟩ := h
  intro htab
  have hnorm : 9 ∈ normalizeModname b := heq ▸ mem_map.2 ⟨9, htab, rfl⟩
  obtain ⟨c, hc, hc9⟩ := mem_map.1 hnorm
  split_ifs at hc9
  · cases hc9
  · have := not_isBlank_of_mem_words hb c hc
    rw [hc9] at this
    cases this

theorem isMatch_ko (b : Bytes) :
    isMatch (parse (text ".ko*")) b = true ↔ ∃ t, b = text ".ko" ++ t := by
  have hparse : parse (text ".ko*") = (text ".ko").map .lit ++ [.star] := rfl
  rw [hparse, isMatch_lits]
  refine exists_congr fun t => and_iff_left ((isMatch_star _ _).2 ⟨t, [], by simp, rfl⟩)

/-- A tab stays in the name if the part before it has no `.ko` of its own, or the part behind it has
one. -/
theorem mem_percent_ko {u v : Bytes}
    (h : ∀ a b, u = a ++ (text ".ko" ++ b) → ∃ a' b', v = a' ++ (text ".ko" ++ b')) :
    9 ∈ percent (parse (text ".ko*")) (u ++ [9] ++ v) := by
  rcases percent_spec (parse (text ".ko*")) (u ++ [9] ++ v) with
    ⟨-, heq⟩ | ⟨a, b, hab, hmatch, heq, hmax⟩
  · rw [heq]
    simp
  rw [heq]
  obtain ⟨t, rfl⟩ := (isMatch_ko b).1 hmatch
  -- The cut is behind the tab, or `.ko` stands before it and then behind it too.
  have hcut : ∀ a' b', v = a' ++ (text ".ko" ++ b') → 9 ∈ a := by
    rintro a' b' rfl
    have hlen := hmax (u ++ [9] ++ a') (text ".ko" ++ b') (by simp) ((isMatch_ko _).2 ⟨b', rfl⟩)
    have hpre : u ++ [9] ++ a' <+: a :=
      prefix_of_prefix_length_le ⟨text ".ko" ++ b', by simp⟩ ⟨_, hab.symm⟩ hlen
    exact hpre.subset (by simp)
  rw [append_assoc] at hab
  rcases append_eq_append_iff.1 hab with ⟨w, rfl, hw⟩ | ⟨w, rfl, hw⟩
  · cases w with
    | nil => cases hw
    | cons d w =>
      obtain rfl : 9 = d := (cons.inj hw).1
      simp
  · have hko : ∃ w', w = text ".ko" ++ w' := by
      rcases append_eq_append_iff.1 hw with ⟨c, rfl, -⟩ | ⟨c, hc, ht⟩
      · exact ⟨c, rfl⟩
      · cases c with
        | nil => exact ⟨[], by rw [hc]; simp⟩
        | cons d c =>
          obtain rfl : 9 = d := (cons.inj ht).1
          have htab : 9 ∈ text ".ko" := hc ▸ by simp
          exact absurd htab (by decide)
    obtain ⟨w', rfl⟩ := hko
    obtain ⟨a', b', hv⟩ := h a w' rfl
    exact hcut a' b' hv

theorem mem_modname_cut {p : Bytes} (h : 9 ∈ modname p) :
    9 ∈ modname (cut (entry (modname p) p)) := by
  obtain ⟨a, r, har, ha⟩ := eq_append_cons_of_mem h
  have hcut : cut (entry (modname p) p) = r ++ [9] ++ p := by
    rw [entry, har, append_assoc, append_assoc]
    exact cut_entry _ ha
  have hslash : parse (text "*/") = [.star, .lit 47] := rfl
  rw [hcut]
  by_cases hp : 47 ∈ p
  · rwa [modname, hslash, hashHash_star_lit_append hp]
  · -- Without a slash the path is the name of the file, and the name of the module is a part of it.
    have hself : hashHash [.star, .lit 47] p = p := hashHash_star_lit_of_not_mem hp
    rw [modname, hslash, hself] at har
    have hsub : ∃ suf, p = a ++ 9 :: r ++ suf := by
      rcases percent_spec (parse (text ".ko*")) p with ⟨-, heq⟩ | ⟨x, y, hxy, -, heq, -⟩
      · exact ⟨[], by rw [← har, heq, append_nil]⟩
      · exact ⟨y, by rw [← har, heq, ← hxy]⟩
    obtain ⟨suf, rfl⟩ := hsub
    rw [modname, hslash, hashHash_star_lit_of_not_mem (by simp_all)]
    refine mem_percent_ko ?_
    rintro x y rfl
    exact ⟨a ++ 9 :: x, y ++ suf, by simp⟩

/-! ## What is left out -/

/-- The run leaves the modules that are blacklisted out if and only if no file of them has a dash in
its name. -/
theorem blacklist_effective_iff {required optional preload load : List Bytes} {rounds : List Round}
    {res : Result}
    (h : putModules blacklistModules required optional preload load rounds = some res) :
    Effective blacklistModules rounds res ↔
      ∀ f ∈ moduleFiles rounds, Blacklisted blacklistModules (modname f) → 45 ∉ modname f := by
  obtain ⟨out, hout, rfl⟩ := Option.map_eq_some_iff.1 h
  obtain ⟨hmade, -, hpass⟩ := mainLoop_spec hout
  constructor
  · intro heff f hmod hbl hdash
    obtain ⟨r, hr, hf⟩ := mem_flatMap.1 hmod
    obtain ⟨l, hl, rfl⟩ := mem_map.1 hf
    obtain ⟨hl, hkw⟩ := mem_filter.1 hl
    have hentry := hpass r hr l hl ⟨of_decide_eq_true hkw, by
      rw [Bool.eq_false_iff, Ne, inBlacklist_iff_blacklisted]
      exact fun hin => hin.2 hdash⟩
    refine heff.files (readLine l).2 (mem_sortUniq.2 ?_) hmod hbl
    exact mem_map.2 ⟨_, mem_append_right _ hentry, cut_entry _ hbl.not_mem_tab⟩
  · intro hcond
    refine ⟨fun f hf hmod hbl => ?_, loadModules_effective, loadModules_effective⟩
    obtain ⟨x, hx, rfl⟩ := mem_map.1 (mem_sortUniq.1 hf)
    have hin := inBlacklist_iff_blacklisted.2 ⟨hbl, hcond _ hmod hbl⟩
    obtain ⟨p, hp, rfl | rfl⟩ := (hmade x hx).resolve_left (by simp)
    · by_cases htab : 9 ∈ modname p
      · exact hbl.not_mem_tab (mem_modname_cut htab)
      · rw [cut_entry p htab, hp] at hin
        cases hin
    · rw [cut_entry p (by decide), hp] at hin
      cases hin

/-- A module is blacklisted under the very name that its file has, and the file is put into the
image. -/
theorem not_blacklist_effective :
    ∃ res, putModules (text "a-b") [text "a-b"] [] [] [] [⟨[text "module /a-b.ko"], true, []⟩] =
      some res ∧
      ¬Effective (text "a-b") [⟨[text "module /a-b.ko"], true, []⟩] res := by
  refine ⟨⟨[text "/a-b.ko"], [], []⟩, by decide +kernel, fun heff => ?_⟩
  exact heff.files (text "/a-b.ko") (by decide +kernel) (by decide +kernel)
    ⟨text "a-b", by decide +kernel, by decide +kernel⟩

/-- With an underscore in the name of the file, the blacklist keeps the module out. -/
theorem blacklist_effective_underscore :
    ∃ res, putModules (text "a-b") [text "a_b"] [] [] [] [⟨[text "module /a_b.ko"], true, []⟩] =
      some res ∧
      Effective (text "a-b") [⟨[text "module /a_b.ko"], true, []⟩] res := by
  have hrun : putModules (text "a-b") [text "a_b"] [] [] [] [⟨[text "module /a_b.ko"], true, []⟩] =
      some ⟨[], [], []⟩ := by
    decide +kernel
  refine ⟨⟨[], [], []⟩, hrun, (blacklist_effective_iff hrun).2 ?_⟩
  intro f hf _
  have hfile : moduleFiles [⟨[text "module /a_b.ko"], true, []⟩] = [text "/a_b.ko"] := by
    decide +kernel
  rw [hfile, mem_singleton] at hf
  rw [hf]
  decide +kernel

end MakeInitrd.AddModules
