import MakeInitrd.Lib.Expand
import MakeInitrd.Lib.Words

/-!
# The active features

`ALL_DISABLE_FEATURES` holds what the features disable that are wanted before it is assigned; the
features that are removed with what they require are those that are disabled by the features wanted
after that (`mem_active`). A feature can be disabled by one that is itself disabled, and then those
that require it stay (`active_consistent_iff`).
-/

namespace MakeInitrd.Mk

open Relation Expand List CMem
open Words (text)

/-!
## The functions of make

A text of make is a list of words here. `if-feature` drops the words that `DISABLE_FEATURES` and
`ALL_DISABLE_FEATURES` name, so what an expansion gives depends on whether the second one has been
assigned. A `%` in these two stands for any text.
-/

abbrev Word := Bytes

/-- A word of `filter-out` stands for itself, or with a `%` in it for all words that start and end
like it. Names do not have a backslash, which would quote the `%`. -/
def matchesWord (pat w : Word) : Bool :=
  if 37 ∈ pat then
    let front := pat.takeWhile (· ≠ 37)
    let back := (pat.dropWhile (· ≠ 37)).tail
    front <+: w && back <:+ w && front.length + back.length ≤ w.length
  else w = pat

/-- `$(filter-out pats,ws)` -/
def filterOut (pats ws : List Word) : List Word := ws.filter fun w => !pats.any (matchesWord · w)

/-- `$(sort ws)`, which drops repeated words -/
def sort (ws : List Word) : List Word := Words.sortUniq ws

/-! ## Features -/

/-- What the configuration says: `FEATURES`, `DISABLE_FEATURES`, whether there is a `UKI`, and the
calls of `__feature-requires` and `__feature-disables` -/
structure Config where
  features : List Word
  disableFeatures : List Word
  uki : Bool
  requires : List (Word × List Word)
  disables : List (Word × List Word)

namespace Config
variable (c : Config)

/-- `FEATURE-REQUIRES-n` -/
def featureRequires (n : Word) : List Word := c.requires.flatMap fun d =>
    if d.1 = n then d.2 else []

/-- `FEATURE-REQUIRED-n`: the features that require `n` -/
def featureRequired (n : Word) : List Word := c.requires.flatMap fun d =>
    (d.2.filter (· = n)).map fun _ => d.1

/-- `FEATURE-DISABLES-n` -/
def featureDisables (n : Word) : List Word := c.disables.flatMap fun d =>
    if d.1 = n then d.2 else []

/-- The word is one that `if-feature` keeps, where `allDisable` is `ALL_DISABLE_FEATURES`. -/
def keeps (allDisable : List Word) (n : Word) : Bool :=
  !(c.disableFeatures ++ allDisable).any (matchesWord · n)

/-- `if-feature` -/
def ifFeature (allDisable ws : List Word) : List Word := ws.filter (c.keeps allDisable)

/-- `expand-list` of `FEATURE-REQUIRED` -/
def expandList (depth : Nat) (ws : List Word) : Option (List Word) :=
  expand c.featureRequired (fun _ => true) depth ws

/-- `expand-features` of `FEATURE-REQUIRES` -/
def expandFeatures (allDisable : List Word) (depth : Nat) (ws : List Word) : Option (List Word) :=
  expand c.featureRequires (c.keeps allDisable) depth ws

/-- `expand-disabled-features` -/
def expandDisabledFeatures (allDisable ws : List Word) : List Word :=
  (c.ifFeature allDisable ws).flatMap c.featureDisables

/-- `$(FEATURES) $(if $(UKI),uki)` -/
def roots : List Word := c.features ++ if c.uki then [text "uki"] else []

/-- `get-all-features` -/
def getAllFeatures (allDisable : List Word) (depth : Nat) : Option (List Word) :=
  (c.expandFeatures allDisable depth c.roots).map sort

/-- `get-all-disable-features` -/
def getAllDisableFeatures (allDisable : List Word) (depth : Nat) : Option (List Word) :=
  (c.getAllFeatures allDisable depth).map fun fs =>
    sort (c.disableFeatures ++ c.expandDisabledFeatures allDisable fs)

/-- `get-all-active-features` -/
def getAllActiveFeatures (allDisable : List Word) (depth : Nat) : Option (List Word) := do
  let disabled ← c.getAllDisableFeatures allDisable depth
  let pats ← c.expandList depth disabled
  let fs ← c.getAllFeatures allDisable depth
  return sort (filterOut pats fs)

end Config

/-- `ALL_FEATURES`, `ALL_DISABLE_FEATURES` and `ALL_ACTIVE_FEATURES` -/
structure Values where
  all : List Word
  disable : List Word
  active : List Word
deriving DecidableEq

/-- The assignments of `genimage.mk`, to a depth of the expansions. `ALL_DISABLE_FEATURES` is empty
before its own. -/
def genimage (c : Config) (depth : Nat) : Option Values := do
  let all ← c.getAllFeatures [] depth
  let disable ← c.getAllDisableFeatures [] depth
  let active ← c.getAllActiveFeatures disable depth
  return ⟨all, disable, active⟩

/-! ## What is expected of them -/

/-- What the active features require is active, and none of them is disabled. -/
def Consistent (c : Config) (v : Values) : Prop :=
  (∀ n ∈ v.active, ∀ m ∈ c.featureRequires n, m ∈ v.active) ∧ ∀ n ∈ v.active, n ∉ v.disable

instance (c : Config) (v : Values) : Decidable (Consistent c v) := by
  unfold Consistent
  infer_instance

/-- No feature requires itself, directly or through others. -/
def Acyclic (c : Config) : Prop := ∀ n, ¬TransGen (fun a b => b ∈ c.featureRequires a) n n

/-- The feature is wanted: a path of requirements leads to it from `FEATURES`, and nothing on it is
off. -/
def Wanted (c : Config) (off : Word → Prop) (n : Word) : Prop :=
  ∃ r ∈ c.roots, ¬off r ∧ ReflTransGen (fun a b => b ∈ c.featureRequires a ∧ ¬off b) r n

/-- The word is in `DISABLE_FEATURES`, or among those that a feature disables that is wanted if
`off` is off. -/
def Disabled (c : Config) (off : Word → Prop) (n : Word) : Prop :=
  n ∈ c.disableFeatures ∨ ∃ x, Wanted c off x ∧ n ∈ c.featureDisables x

/-- The feature is one that `DISABLE_FEATURES` names. -/
def OffAtFirst (c : Config) (n : Word) : Prop := ∃ p ∈ c.disableFeatures, matchesWord p n

/-- The feature is one that `DISABLE_FEATURES` names, or a feature that is wanted but for these. -/
def Off (c : Config) (n : Word) : Prop := ∃ p, Disabled c (OffAtFirst c) p ∧ matchesWord p n

/-- A word that names the feature requires, directly or through others, one that is disabled by
`DISABLE_FEATURES` or by a feature that stays wanted. -/
def Dropped (c : Config) (n : Word) : Prop :=
  ∃ p k, matchesWord p n ∧ ReflTransGen (fun a b => b ∈ c.featureRequires a) p k ∧
    Disabled c (Off c) k

/-- A feature that stays wanted and requires one that is off or dropped is dropped itself. -/
def StaysDisabled (c : Config) : Prop :=
  ∀ n, Wanted c (Off c) n → ∀ m ∈ c.featureRequires n, Off c m ∨ Dropped c m → Dropped c n

/-! ## The expansions -/

variable {c : Config}

theorem mem_sort {ws : List Word} {w : Word} : w ∈ sort ws ↔ w ∈ ws := by
  simp [sort]

theorem matchesWord_self (w : Word) : matchesWord w w = true := by
  rw [matchesWord]
  split_ifs with h
  · have hlen := congrArg length (takeWhile_append_dropWhile (p := (· ≠ 37)) (l := w))
    rw [length_append] at hlen
    simp only [Bool.and_eq_true, decide_eq_true_eq, length_tail]
    refine ⟨⟨ takeWhile_prefix _, (tail_suffix _).trans (dropWhile_suffix _)⟩, by omega⟩
  · exact decide_eq_true rfl

theorem mem_filterOut {pats ws : List Word} {w : Word} :
    w ∈ filterOut pats ws ↔ w ∈ ws ∧ ¬∃ p ∈ pats, matchesWord p w := by
  simp [filterOut]

theorem mem_featureRequired {n m : Word} : m ∈ c.featureRequired n ↔ n ∈ c.featureRequires m := by
  simp only [Config.featureRequired, Config.featureRequires, mem_flatMap, mem_map, mem_filter,
    decide_eq_true_eq]
  constructor
  · rintro ⟨d, hd, w, ⟨hw, rfl⟩, rfl⟩
    exact ⟨d, hd, by simpa using hw⟩
  · rintro ⟨d, hd, hn⟩
    split_ifs at hn with hm
    · exact ⟨d, hd, n, ⟨hn, rfl⟩, hm⟩
    · cases hn

section
variable {allDisable : List Word} {depth : Nat}

theorem keeps_iff (n : Word) :
    c.keeps allDisable n = true ↔ ¬∃ p, (p ∈ c.disableFeatures ∨ p ∈ allDisable) ∧
      matchesWord p n := by
  simp [Config.keeps, or_imp, forall_and]

variable {off : Word → Prop}

theorem Wanted.not_off {n : Word} (h : Wanted c off n) : ¬off n := by
  obtain ⟨r, -, hr, hpath⟩ := h
  rcases ReflTransGen.cases_tail hpath with rfl | ⟨m, -, hn⟩
  · exact hr
  · exact hn.2

theorem Wanted.requires {n m : Word} (h : Wanted c off n) (hm : m ∈ c.featureRequires n)
    (hoff : ¬off m) :
    Wanted c off m := by
  obtain ⟨r, hr, hroff, hpath⟩ := h
  exact ⟨r, hr, hroff, hpath.tail ⟨hm, hoff⟩⟩

theorem mem_getAllFeatures (hkeeps : ∀ n, c.keeps allDisable n = true ↔ ¬off n) {fs : List Word}
    (h : c.getAllFeatures allDisable depth = some fs) {n : Word} : n ∈ fs ↔ Wanted c off n := by
  obtain ⟨r, hr, rfl⟩ := Option.map_eq_some_iff.1 h
  rw [mem_sort, mem_expand hr, Wanted]
  simp only [hkeeps]

theorem mem_getAllDisableFeatures (hkeeps : ∀ n, c.keeps allDisable n = true ↔ ¬off n)
    {ds : List Word}
    (h : c.getAllDisableFeatures allDisable depth = some ds) {n : Word} :
    n ∈ ds ↔ Disabled c off n := by
  obtain ⟨fs, hfs, rfl⟩ := Option.map_eq_some_iff.1 h
  simp only [mem_sort, mem_append, Config.expandDisabledFeatures, Config.ifFeature, mem_flatMap,
    mem_filter, mem_getAllFeatures hkeeps hfs, hkeeps, Disabled]
  refine or_congr_right (exists_congr fun x => and_congr_left fun _ => ?_)
  exact and_iff_left_of_imp Wanted.not_off

end

/-! ## The values -/

theorem reach_featureRequired {n k : Word} : ReflTransGen (fun a b => b ∈ c.featureRequired a) k n ↔
      ReflTransGen (fun a b => b ∈ c.featureRequires a) n k := by
  rw [← reflTransGen_swap]
  simp only [mem_featureRequired]

variable {depth : Nat} {v : Values}

theorem mem_disable (h : genimage c depth = some v) {n : Word} :
    n ∈ v.disable ↔ Disabled c (OffAtFirst c) n := by
  obtain ⟨all, -, h⟩ := Option.bind_eq_some_iff.1 h
  obtain ⟨disable, hdisable, h⟩ := Option.bind_eq_some_iff.1 h
  obtain ⟨active, -, h⟩ := Option.bind_eq_some_iff.1 h
  cases h
  refine mem_getAllDisableFeatures (fun n => ?_) hdisable
  simp [keeps_iff, OffAtFirst]

/-- A feature is active if it stays wanted and is not dropped. -/
theorem mem_active (h : genimage c depth = some v) {n : Word} :
    n ∈ v.active ↔ Wanted c (Off c) n ∧ ¬Dropped c n := by
  have hmem := fun n => mem_disable h (n := n)
  obtain ⟨all, -, h⟩ := Option.bind_eq_some_iff.1 h
  obtain ⟨disable, hdisable, h⟩ := Option.bind_eq_some_iff.1 h
  obtain ⟨active, hactive, h⟩ := Option.bind_eq_some_iff.1 h
  cases h
  simp only at hmem ⊢
  have hkeeps : ∀ n, c.keeps disable n = true ↔ ¬Off c n := by
    intro n
    simp only [keeps_iff, hmem]
    exact not_congr (exists_congr fun p => and_congr_left fun _ => or_iff_right_of_imp Or.inl)
  obtain ⟨ds, hds, hactive⟩ := Option.bind_eq_some_iff.1 hactive
  obtain ⟨pats, hpats, hactive⟩ := Option.bind_eq_some_iff.1 hactive
  obtain ⟨fs, hfs, hactive⟩ := Option.bind_eq_some_iff.1 hactive
  cases hactive
  have hpat : (∃ p ∈ pats, matchesWord p n) ↔ Dropped c n := by
    simp only [mem_expand hpats, mem_getAllDisableFeatures hkeeps hds, true_and, and_true,
      reach_featureRequired]
    constructor
    · rintro ⟨p, ⟨k, hk, hpath⟩, hp⟩
      exact ⟨p, k, hp, hpath, hk⟩
    · rintro ⟨p, k, hp, hpath, hk⟩
      exact ⟨p, ⟨k, hk, hpath⟩, hp⟩
  rw [mem_sort, mem_filterOut, mem_getAllFeatures hkeeps hfs, hpat]

/-- Without cycles the expansion comes to its end. -/
theorem exists_genimage (h : Acyclic c) : ∃ depth v, genimage c depth = some v := by
  classical
  let s := (c.requires.flatMap (·.2)).toFinset
  let t := (c.requires.map (·.1)).toFinset
  have hrequires : ∀ a, ∀ b ∈ c.featureRequires a, b ∈ s := by
    intro a b hb
    obtain ⟨d, hd, hb⟩ := mem_flatMap.1 hb
    split_ifs at hb
    · exact mem_toFinset.2 (mem_flatMap.2 ⟨d, hd, hb⟩)
    · cases hb
  have hrequired : ∀ a, ∀ b ∈ c.featureRequired a, b ∈ t := by
    intro a b hb
    obtain ⟨d, hd, hb⟩ := mem_flatMap.1 hb
    obtain ⟨w, -, rfl⟩ := mem_map.1 hb
    exact mem_toFinset.2 (mem_map.2 ⟨d, hd, rfl⟩)
  have hback : ∀ n, ¬TransGen (fun a b => b ∈ c.featureRequired a) n n := by
    intro n hn
    refine h n ?_
    rw [← transGen_swap]
    simpa only [Function.swap, mem_featureRequired] using hn
  let depth := s.card + t.card + 2
  have hfeatures : ∀ allDisable ws, ∃ r, c.expandFeatures allDisable depth ws = some r :=
    fun _ ws => exists_depth h s hrequires (by omega) ws
  have hlist : ∀ ws, ∃ r, c.expandList depth ws = some r :=
    fun ws => exists_depth hback t hrequired (by omega) ws
  have hall : ∀ allDisable, ∃ fs, c.getAllFeatures allDisable depth = some fs := by
    intro allDisable
    obtain ⟨r, hr⟩ := hfeatures allDisable c.roots
    exact ⟨sort r, by rw [Config.getAllFeatures, hr]; rfl⟩
  have hdisable : ∀ allDisable, ∃ ds, c.getAllDisableFeatures allDisable depth = some ds := by
    intro allDisable
    obtain ⟨fs, hfs⟩ := hall allDisable
    exact ⟨_, by rw [Config.getAllDisableFeatures, hfs]; rfl⟩
  obtain ⟨fs, hfs⟩ := hall []
  obtain ⟨ds, hds⟩ := hdisable []
  obtain ⟨ds', hds'⟩ := hdisable ds
  obtain ⟨pats, hpats⟩ := hlist ds'
  obtain ⟨fs', hfs'⟩ := hall ds
  have hactive : c.getAllActiveFeatures ds depth = some (sort (filterOut pats fs')) := by
    simp [Config.getAllActiveFeatures, hds', hpats, hfs']
  exact ⟨depth, _, by simp [genimage, hfs, hds, hactive]; rfl⟩

/-- The values are consistent if a feature that requires one that is off or dropped is always
dropped with it, and only then. -/
theorem active_consistent_iff (c : Config) (hacyclic : Acyclic c) :
    (∃ depth v, genimage c depth = some v) ∧
      ∀ depth v, genimage c depth = some v → (Consistent c v ↔ StaysDisabled c) := by
  refine ⟨exists_genimage hacyclic, fun depth v h => ?_⟩
  have hactive := fun n => mem_active h (n := n)
  constructor
  · rintro ⟨hclosed, -⟩ n hn m hm hoff
    by_contra hno
    obtain ⟨hwanted, hkept⟩ := (hactive m).1 (hclosed n ((hactive n).2 ⟨hn, hno⟩) m hm)
    exact hoff.elim hwanted.not_off hkept
  · intro hstays
    refine ⟨fun n hn m hm => ?_, fun n hn hdisable => ?_⟩
    · obtain ⟨hwanted, hno⟩ := (hactive n).1 hn
      have hm' := not_or.1 (mt (hstays n hwanted m hm) hno)
      exact (hactive m).2 ⟨hwanted.requires hm hm'.1, hm'.2⟩
    · exact ((hactive n).1 hn).1.not_off ⟨n, (mem_disable h).1 hdisable, matchesWord_self n⟩

theorem acyclic_of_rank (rank : Word → Nat) (h : ∀ a, ∀ b ∈ c.featureRequires a, rank b < rank a) :
    Acyclic c := by
  have hlt : ∀ a b, TransGen (fun a b => b ∈ c.featureRequires a) a b → rank b < rank a := by
    intro a b hab
    induction hab with
    | single hb => exact h _ _ hb
    | tail _ hb ih => exact (h _ _ hb).trans ih
  exact fun n hn => lt_irrefl _ (hlt n n hn)

/-- `a` requires `m`, which `x` disables, and `DISABLE_FEATURES` names all that starts with `d`. -/
def disabling : Config :=
  ⟨[text "a", text "d1", text "x"], [text "d%"], false, [(text "a", [text "m"])],
    [(text "x", [text "m"])]⟩

/-- Only `x` is active: `a` is dropped with what it requires. -/
theorem active_consistent_iff_disabling :
    ∃ v, genimage disabling 5 = some v ∧ v.active = [text "x"] ∧
      (Consistent disabling v ↔ StaysDisabled disabling) := by
  refine ⟨⟨[text "a", text "m", text "x"], [text "d%", text "m"], [text "x"]⟩,
    by decide +kernel, rfl, ?_⟩
  refine (active_consistent_iff disabling ?_).2 5 _ (by decide +kernel)
  refine acyclic_of_rank (fun n => if n = text "a" then 1 else 0) fun a b hb => ?_
  simp only [disabling, Config.featureRequires, flatMap_cons, flatMap_nil, append_nil] at hb
  split_ifs at hb with ha
  · obtain rfl := mem_singleton.1 hb
    subst ha
    decide
  · cases hb

/-- `n` requires `m`, `x` disables `m`, and `y` disables `x`: `m` is disabled by a feature that is
disabled itself. -/
theorem not_active_consistent :
    let c : Config := ⟨[text "n", text "x", text "y"], [], false, [(text "n", [text "m"])],
      [(text "x", [text "m"]), (text "y", [text "x"])]⟩
    ∃ v, genimage c 5 = some v ∧ v.active = [text "n", text "y"] ∧ ¬Consistent c v :=
  ⟨⟨[text "m", text "n", text "x", text "y"], [text "m", text "x"], [text "n", text "y"]⟩,
    by decide +kernel, rfl,
    by decide +kernel⟩

end MakeInitrd.Mk
