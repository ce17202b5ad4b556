import MakeInitrd.Lib.Words

/-!
# Rulesets of `initrd-scanmod`

`process_module` checks a module against the rulesets in turn and prints its path for the first one
that matches. What libkmod says about the module is read when a ruleset needs it and kept for the
rulesets after it, also that it could not be read (`ModuleData`). So a ruleset matches if all its
rules are satisfied, whatever was checked before it (`checks_processModuleRuleset`). libkmod
and `regexec` are parameters.
-/

namespace MakeInitrd.Scanmod

open CMem
open Words (text)

/-! ## Rules -/

/-- `rule_t` -/
inductive RuleType where
  | isMatch
  | notMatch
deriving DecidableEq

/-- `keyword_t`, without `KW_UNKNOWN_KEYWORD`, with which no rule is made -/
inductive Keyword where
  | alias
  | author
  | depends
  | description
  | filename
  | firmware
  | license
  | name
  | symbol
deriving DecidableEq

/-- `keywords` -/
def Keyword.text : Keyword → Bytes
  | .alias => Words.text "alias"
  | .author => Words.text "author"
  | .depends => Words.text "depends"
  | .description => Words.text "description"
  | .filename => Words.text "filename"
  | .firmware => Words.text "firmware"
  | .license => Words.text "license"
  | .name => Words.text "name"
  | .symbol => Words.text "symbol"

/-- `struct rule_pair`, over compiled expressions of `R` -/
structure Rule (R : Type) where
  type : RuleType
  keyword : Keyword
  value : R

/-- `RULESET_HAS_INFO`, `RULESET_HAS_SYMBOLS` and `RULESET_HAS_PATHS` -/
structure Flags where
  info : Bool
  symbols : Bool
  paths : Bool
deriving DecidableEq

def Flags.none : Flags := ⟨false, false, false⟩

/-- `struct ruleset`, without the name of its file -/
structure Ruleset (R : Type) where
  flags : Flags
  info : List (Rule R)
  symbols : List (Rule R)
  paths : List (Rule R)

variable {R M : Type}

def Ruleset.empty : Ruleset R := ⟨.none, [], [], []⟩

/-- What `parse_ruleset` does with a rule. -/
def Ruleset.add (set : Ruleset R) (r : Rule R) : Ruleset R :=
  match r.keyword with
  | .symbol =>
    { set with symbols := set.symbols ++ [r], flags := { set.flags with symbols := true } }
  | .filename => { set with paths := set.paths ++ [r], flags := { set.flags with paths := true } }
  | _ => { set with info := set.info ++ [r], flags := { set.flags with info := true } }

/-- The ruleset of the rules of a file. -/
def Ruleset.ofRules (rules : List (Rule R)) : Ruleset R :=
  rules.foldl Ruleset.add .empty

/-! ## What libkmod says -/

/-- What `kmod_module_get_symbols` and `kmod_module_get_dependency_symbols` give. -/
inductive Symbols where
  | list (names : List (Option Bytes))
  /-- `-ENOENT` or `-ENODATA` -/
  | noData
  | error
deriving DecidableEq

/-- libkmod; a string that is NULL is `none`. -/
structure Libkmod (M : Type) where
  /-- `kmod_module_new_from_path`; `none` if it fails -/
  newFromPath : Bytes → Option M
  /-- `kmod_module_get_name` -/
  getName : M → Option Bytes
  /-- `kmod_module_get_info`, with the keys and values of the list; `none` if it fails -/
  getInfo : M → Option (List (Option Bytes × Option Bytes))
  getSymbols : M → Symbols
  getDependencySymbols : M → Symbols

/-- What does not change while a module is checked. -/
structure Scan (R M : Type) where
  kmod : Libkmod M
  /-- `!regexec` -/
  regexec : R → Bytes → Bool
  /-- the path of the module -/
  filename : Bytes

/-- `info_state` and `symbols_state` -/
inductive Cached where
  | unread
  | read
  | failed
deriving DecidableEq

/-- What is written, to either stream; without `--verbose`. -/
inductive Output where
  | path (filename : Bytes)
  | noInformation (modname : Option Bytes)
  | noSymbols (modname : Option Bytes)
  | noDependencySymbols (modname : Option Bytes)
deriving DecidableEq

/-- `struct module_data`, with what has been written. -/
structure ModuleData (M : Type) where
  mod : Option M
  modname : Option Bytes
  infolist : List (Option Bytes × Option Bytes)
  infoState : Cached
  provided : List (Option Bytes)
  required : List (Option Bytes)
  symbolsState : Cached
  out : List Output

/-- The initial value in `process_module`. -/
def ModuleData.init : ModuleData M :=
  ⟨none, none, [], .unread, [], [], .unread, []⟩

def ModuleData.write (d : ModuleData M) (o : Output) : ModuleData M :=
  { d with out := d.out ++ [o] }

/-! ## Checking rules -/

/-- The switch over the type of a rule: whether the loop goes on. -/
def Rule.accepts (r : Rule R) (isMatch : Bool) : Bool :=
  match r.type with
  | .isMatch => isMatch
  | .notMatch => !isMatch

section
variable (scan : Scan R M)

/-- `match_filename` -/
def matchFilename (filters : List (Rule R)) : Bool :=
  filters.all fun r => r.accepts (scan.regexec r.value scan.filename)

/-- Some entry of the list with the key of the rule has a value that matches. -/
def hasInfoMatch (infolist : List (Option Bytes × Option Bytes)) (r : Rule R) : Bool :=
  infolist.any fun e => e.1 = some r.keyword.text && e.2.any (scan.regexec r.value)

/-- `match`, with the keys and values of the module information -/
def matchInfo (infolist : List (Option Bytes × Option Bytes)) (filters : List (Rule R)) : Bool :=
  filters.all fun r => r.accepts (hasInfoMatch scan infolist r)

/-- `has_symbol_match` -/
def hasSymbolMatch (list : List (Option Bytes)) (preg : R) : Bool :=
  list.any fun val => val.any (scan.regexec preg)

/-- `match_symbols` -/
def matchSymbols (provided required : List (Option Bytes)) (filters : List (Rule R)) : Bool :=
  filters.all fun r =>
    r.accepts (hasSymbolMatch scan provided r.value || hasSymbolMatch scan required r.value)

/-! ## Checking a module -/

/-- `init_module_mod`; `none` for -1, with the data after it. -/
def initModuleMod (d : ModuleData M) : Option M × ModuleData M :=
  match d.mod with
  | some m => (some m, d)
  | none =>
    match scan.kmod.newFromPath scan.filename with
    | none => (none, d)
    | some m =>
      match scan.kmod.getName m with
      | none => (none, { d with mod := some m, modname := none })
      | some name => (some m, { d with mod := some m, modname := some name })

/-- The module information as far as it can be had: from the cache, or from libkmod. -/
def loadInfo (d : ModuleData M) : Option (List (Option Bytes × Option Bytes)) × ModuleData M :=
  match initModuleMod scan d with
  | (none, d) => (none, d)
  | (some m, d) =>
    match d.infoState with
    | .unread =>
      match scan.kmod.getInfo m with
      | some infolist => (some infolist, { d with infolist := infolist, infoState := .read })
      | none => (none, { d with infoState := .failed }.write (.noInformation d.modname))
    | .read => (some d.infolist, d)
    | .failed => (none, d)

/-- The list that a call has stored, or what was there before. -/
def Symbols.store (symbols : Symbols) (before : List (Option Bytes)) : List (Option Bytes) :=
  match symbols with
  | .list names => names
  | _ => before

/-- The symbols in the same way. -/
def loadSymbols (d : ModuleData M) :
    Option (List (Option Bytes) × List (Option Bytes)) × ModuleData M :=
  match initModuleMod scan d with
  | (none, d) => (none, d)
  | (some m, d) =>
    match d.symbolsState with
    | .unread =>
      let provided := scan.kmod.getSymbols m
      if provided = .error then
        (none, { d with symbolsState := .failed }.write (.noSymbols d.modname))
      else
        let d := { d with provided := provided.store d.provided }
        let required := scan.kmod.getDependencySymbols m
        if required = .error then
          (none, { d with symbolsState := .failed }.write (.noDependencySymbols d.modname))
        else
          let d := { d with required := required.store d.required, symbolsState := .read }
          (some (d.provided, d.required), d)
    | .read => (some (d.provided, d.required), d)
    | .failed => (none, d)

/-- The last part of `process_module_ruleset`. -/
def checkSymbols (set : Ruleset R) (isMatch : Flags) (d : ModuleData M) : Bool × ModuleData M :=
  if set.flags.symbols then
    match loadSymbols scan d with
    | (none, d) => (false, d)
    | (some (provided, required), d) =>
      if matchSymbols scan provided required set.symbols then
        let isMatch := { isMatch with symbols := true }
        if set.flags ≠ .none ∧ set.flags = isMatch then (true, d.write (.path scan.filename))
        else (false, d)
      else (false, d)
  else if set.flags ≠ .none ∧ set.flags = isMatch then (true, d.write (.path scan.filename))
  else (false, d)

/-- The part for the module information, and those after it. -/
def checkInfo (set : Ruleset R) (isMatch : Flags) (d : ModuleData M) : Bool × ModuleData M :=
  if set.flags.info then
    match loadInfo scan d with
    | (none, d) => (false, d)
    | (some infolist, d) =>
      if matchInfo scan infolist set.info then
        checkSymbols scan set { isMatch with info := true } d
      else (false, d)
  else checkSymbols scan set isMatch d

/-- `process_module_ruleset` -/
def processModuleRuleset (set : Ruleset R) (d : ModuleData M) : Bool × ModuleData M :=
  if set.flags = .none then (false, d)
  else if set.flags.paths ∧ matchFilename scan set.paths = false then (false, d)
  else
    let isMatch := if set.flags.paths then { Flags.none with paths := true } else .none
    if set.flags = isMatch then (true, d.write (.path scan.filename))
    else checkInfo scan set isMatch d

/-- The loop of `process_module`. -/
def processModule : List (Ruleset R) → ModuleData M → ModuleData M
  | [], d => d
  | set :: sets, d =>
    match processModuleRuleset scan set d with
    | (true, d) => d
    | (false, d) => processModule sets d

/-! ## What a rule says -/

/-- The module information; `none` if it cannot be read. -/
def Scan.info : Option (List (Option Bytes × Option Bytes)) :=
  (scan.kmod.newFromPath scan.filename).bind scan.kmod.getInfo

/-- The provided and the required symbols; `none` if they cannot be read. -/
def Scan.symbols : Option (List (Option Bytes) × List (Option Bytes)) :=
  (scan.kmod.newFromPath scan.filename).bind fun m =>
    if scan.kmod.getSymbols m = .error ∨ scan.kmod.getDependencySymbols m = .error then none
    else some ((scan.kmod.getSymbols m).store [], (scan.kmod.getDependencySymbols m).store [])

/-- A rule with `not-` says the opposite. -/
def Rule.Says (r : Rule R) (P : Prop) : Prop :=
  match r.type with
  | .isMatch => P
  | .notMatch => ¬P

def Satisfied (r : Rule R) : Prop :=
  match r.keyword with
  | .filename => r.Says (scan.regexec r.value scan.filename)
  | .symbol => ∃ provided required, scan.symbols = some (provided, required) ∧
      r.Says (∃ name, (some name ∈ provided ∨ some name ∈ required) ∧ scan.regexec r.value name)
  | _ => ∃ infolist, scan.info = some infolist ∧
      r.Says (∃ value, (some r.keyword.text, some value) ∈ infolist ∧ scan.regexec r.value value)

/-- A ruleset matches: it has a rule, and all its rules are satisfied. -/
def Matches (rules : List (Rule R)) : Prop :=
  rules ≠ [] ∧ ∀ r ∈ rules, Satisfied scan r

/-- The paths that have been printed. -/
def ModuleData.printed (d : ModuleData M) : List Bytes :=
  d.out.filterMap fun
    | .path filename => some filename
    | _ => none

end

section
variable {scan : Scan R M} {d : ModuleData M} {r : Rule R} {rules : List (Rule R)} {set : Ruleset R}

theorem Rule.accepts_iff (r : Rule R) {b : Bool} {P : Prop} (h : b = true ↔ P) :
    r.accepts b = true ↔ r.Says P := by
  unfold Rule.accepts Rule.Says
  cases r.type with
  | isMatch => exact h
  | notMatch => rw [Bool.not_eq_true', ← Bool.not_eq_true, h]

variable {filters : List (Rule R)}

theorem matchFilename_iff (h : ∀ r ∈ filters, r.keyword = .filename) :
    matchFilename scan filters = true ↔ ∀ r ∈ filters, Satisfied scan r := by
  unfold matchFilename
  rw [List.all_eq_true]
  refine forall₂_congr fun r hr => ?_
  simp only [Satisfied, h r hr]
  exact r.accepts_iff Iff.rfl

variable {infolist : List (Option Bytes × Option Bytes)}

theorem hasInfoMatch_iff : hasInfoMatch scan infolist r = true ↔
      ∃ value, (some r.keyword.text, some value) ∈ infolist ∧ scan.regexec r.value value := by
  unfold hasInfoMatch
  rw [List.any_eq_true]
  constructor
  · rintro ⟨⟨key, val⟩, hmem, h⟩
    rw [Bool.and_eq_true, decide_eq_true_eq, Option.any_eq_true] at h
    obtain ⟨rfl, value, rfl, hmatch⟩ := h
    exact ⟨value, hmem, hmatch⟩
  · rintro ⟨value, hmem, hmatch⟩
    exact ⟨_, hmem, by simpa using hmatch⟩

theorem hasSymbolMatch_iff {list : List (Option Bytes)} {preg : R} :
    hasSymbolMatch scan list preg = true ↔ ∃ name, some name ∈ list ∧ scan.regexec preg name := by
  unfold hasSymbolMatch
  rw [List.any_eq_true]
  constructor
  · rintro ⟨val, hmem, h⟩
    obtain ⟨name, rfl, hmatch⟩ := (Option.any_eq_true _ _).1 h
    exact ⟨name, hmem, hmatch⟩
  · rintro ⟨name, hmem, hmatch⟩
    exact ⟨some name, hmem, hmatch⟩

/-- Rules for the module information. -/
def Keyword.isInfo : Keyword → Bool
  | .filename | .symbol => false
  | _ => true

theorem satisfied_info (h : r.keyword.isInfo) :
    Satisfied scan r ↔ ∃ infolist, scan.info = some infolist ∧
      r.Says (∃ value, (some r.keyword.text, some value) ∈ infolist ∧
        scan.regexec r.value value) := by
  unfold Satisfied
  cases hk : r.keyword with
  | filename | symbol =>
    rw [hk] at h
    cases h
  | _ => exact Iff.rfl

theorem satisfied_symbol (h : r.keyword = .symbol) :
    Satisfied scan r ↔ ∃ provided required, scan.symbols = some (provided, required) ∧
      r.Says (∃ name, (some name ∈ provided ∨ some name ∈ required) ∧
        scan.regexec r.value name) := by
  simp only [Satisfied, h]

theorem matchInfo_iff (hinfo : scan.info = some infolist) (h : ∀ r ∈ filters, r.keyword.isInfo) :
    matchInfo scan infolist filters = true ↔ ∀ r ∈ filters, Satisfied scan r := by
  unfold matchInfo
  rw [List.all_eq_true]
  refine forall₂_congr fun r hr => ?_
  rw [satisfied_info (h r hr), r.accepts_iff hasInfoMatch_iff, hinfo]
  simp

theorem matchSymbols_iff {provided required : List (Option Bytes)}
    (hsymbols : scan.symbols = some (provided, required)) (h : ∀ r ∈ filters, r.keyword = .symbol) :
    matchSymbols scan provided required filters = true ↔ ∀ r ∈ filters, Satisfied scan r := by
  unfold matchSymbols
  rw [List.all_eq_true]
  refine forall₂_congr fun r hr => ?_
  have heither :
      (hasSymbolMatch scan provided r.value || hasSymbolMatch scan required r.value) = true ↔
      ∃ name, (some name ∈ provided ∨ some name ∈ required) ∧ scan.regexec r.value name := by
    rw [Bool.or_eq_true, hasSymbolMatch_iff, hasSymbolMatch_iff, ← exists_or]
    simp only [or_and_right]
  rw [satisfied_symbol (h r hr), r.accepts_iff heither, hsymbols]
  simp

/-- A ruleset holds these rules by kind, and its flags say which kinds there are. -/
structure Ruleset.Holds (set : Ruleset R) (rules : List (Rule R)) : Prop where
  info : ∀ r, r ∈ set.info ↔ r ∈ rules ∧ r.keyword.isInfo
  symbols : ∀ r, r ∈ set.symbols ↔ r ∈ rules ∧ r.keyword = .symbol
  paths : ∀ r, r ∈ set.paths ↔ r ∈ rules ∧ r.keyword = .filename
  flags_info : set.flags.info = true ↔ set.info ≠ []
  flags_symbols : set.flags.symbols = true ↔ set.symbols ≠ []
  flags_paths : set.flags.paths = true ↔ set.paths ≠ []

theorem flag_iff {b : Bool} {l : List (Rule R)} (h : b = true ↔ l ≠ []) : b = false ↔ l = [] := by
  rw [← Bool.not_eq_true, h, not_not]

theorem Ruleset.Holds.add (h : set.Holds rules) (r : Rule R) :
    (set.add r).Holds (rules ++ [r]) := by
  obtain ⟨hinfo, hsymbols, hpaths, hfi, hfs, hfp⟩ := h
  have hother {l : List (Rule R)} {P : Rule R → Prop} (hl : ∀ r', r' ∈ l ↔ r' ∈ rules ∧ P r')
      (hr : ¬P r) (r' : Rule R) : r' ∈ l ↔ r' ∈ rules ++ [r] ∧ P r' := by
    rw [hl, List.mem_append, List.mem_singleton]
    refine ⟨fun h => ⟨.inl h.1, h.2⟩, fun ⟨hor, hP⟩ => ⟨hor.resolve_right ?_, hP⟩⟩
    rintro rfl
    exact hr hP
  have hself {l : List (Rule R)} {P : Rule R → Prop} (hl : ∀ r', r' ∈ l ↔ r' ∈ rules ∧ P r')
      (hr : P r) (r' : Rule R) : r' ∈ l ++ [r] ↔ r' ∈ rules ++ [r] ∧ P r' := by
    rw [List.mem_append, hl, List.mem_append, List.mem_singleton, or_and_right]
    refine or_congr_right ⟨fun heq => ⟨heq, heq ▸ hr⟩, And.left⟩
  have hset {l : List (Rule R)} : true = true ↔ l ++ [r] ≠ [] := iff_of_true rfl (by simp)
  unfold Ruleset.add
  cases hk : r.keyword with
  | symbol =>
    exact ⟨hother hinfo (by simp [hk, Keyword.isInfo]), hself hsymbols hk,
      hother hpaths (by simp [hk]), hfi, hset, hfp⟩
  | filename =>
    exact ⟨hother hinfo (by simp [hk, Keyword.isInfo]), hother hsymbols (by simp [hk]),
      hself hpaths hk, hfi, hfs, hset⟩
  | _ =>
    exact ⟨hself hinfo (by simp [hk, Keyword.isInfo]), hother hsymbols (by simp [hk]),
      hother hpaths (by simp [hk]), hset, hfs, hfp⟩

theorem holds_ofRules (rules : List (Rule R)) : (Ruleset.ofRules rules).Holds rules := by
  induction rules using List.reverseRecOn with
  | nil =>
    exact ⟨by simp [Ruleset.ofRules, Ruleset.empty], by simp [Ruleset.ofRules, Ruleset.empty],
      by simp [Ruleset.ofRules, Ruleset.empty],
      by simp [Ruleset.ofRules, Ruleset.empty, Flags.none],
      by simp [Ruleset.ofRules, Ruleset.empty, Flags.none],
      by simp [Ruleset.ofRules, Ruleset.empty, Flags.none]⟩
  | append_singleton rules r ih =>
    rw [Ruleset.ofRules, List.foldl_concat]
    exact ih.add r

/-! ## The cache -/

/-- What is kept about the module is what libkmod says. -/
structure ModuleData.Valid (scan : Scan R M) (d : ModuleData M) : Prop where
  mod : ∀ m, d.mod = some m → scan.kmod.newFromPath scan.filename = some m
  info_read : d.infoState = .read → scan.info = some d.infolist
  info_failed : d.infoState = .failed → scan.info = none
  symbols_unread : d.symbolsState = .unread → d.provided = [] ∧ d.required = []
  symbols_read : d.symbolsState = .read → scan.symbols = some (d.provided, d.required)
  symbols_failed : d.symbolsState = .failed → scan.symbols = none

theorem valid_init : (ModuleData.init : ModuleData M).Valid scan where
  mod _ := nofun
  info_read := nofun
  info_failed := nofun
  symbols_unread _ := ⟨rfl, rfl⟩
  symbols_read := nofun
  symbols_failed := nofun

section
variable {infolist : List (Option Bytes × Option Bytes)} {provided required : List (Option Bytes)}

theorem ModuleData.Valid.readInfo (h : d.Valid scan) (hinfo : scan.info = some infolist) :
    { d with infolist := infolist, infoState := .read }.Valid scan :=
  ⟨h.mod, fun _ => hinfo, nofun, h.symbols_unread, h.symbols_read, h.symbols_failed⟩

theorem ModuleData.Valid.failInfo (h : d.Valid scan) (hinfo : scan.info = none) :
    { d with infoState := .failed }.Valid scan :=
  ⟨h.mod, nofun, fun _ => hinfo, h.symbols_unread, h.symbols_read, h.symbols_failed⟩

theorem ModuleData.Valid.readSymbols (h : d.Valid scan)
    (hsymbols : scan.symbols = some (provided, required)) :
    { d with provided := provided, required := required, symbolsState := .read }.Valid scan :=
  ⟨h.mod, h.info_read, h.info_failed, nofun, fun _ => hsymbols, nofun⟩

theorem ModuleData.Valid.failSymbols (h : d.Valid scan) (hsymbols : scan.symbols = none) :
    { d with provided := provided, symbolsState := .failed }.Valid scan :=
  ⟨h.mod, h.info_read, h.info_failed, nofun, nofun, fun _ => hsymbols⟩

end

theorem ModuleData.Valid.write (h : d.Valid scan) (o : Output) : (d.write o).Valid scan :=
  ⟨h.mod, h.info_read, h.info_failed, h.symbols_unread, h.symbols_read, h.symbols_failed⟩

theorem printed_write (d : ModuleData M) {o : Output} (h : ∀ filename, o ≠ .path filename) :
    (d.write o).printed = d.printed := by
  unfold ModuleData.printed ModuleData.write
  rw [List.filterMap_append]
  cases o with
  | path filename => exact absurd rfl (h filename)
  | _ => exact List.append_nil _

theorem printed_write_path (d : ModuleData M) (filename : Bytes) :
    (d.write (.path filename)).printed = d.printed ++ [filename] := by
  unfold ModuleData.printed ModuleData.write
  rw [List.filterMap_append]
  rfl

/-- A part of the data is asked for: the answer is that of libkmod, and nothing is printed. -/
structure Loads {α : Type} (scan : Scan R M) (d : ModuleData M) (a : Option α)
    (result : Option α × ModuleData M) : Prop where
  answer : result.1 = a
  valid : result.2.Valid scan
  printed : result.2.printed = d.printed

theorem Loads.exists {α : Type} {a : Option α} {result : Option α × ModuleData M}
    (h : Loads scan d a result) :
    ∃ d', result = (a, d') ∧ d'.Valid scan ∧ d'.printed = d.printed :=
  ⟨result.2, Prod.ext h.answer rfl, h.valid, h.printed⟩

section
variable (hnamed : ∀ m, scan.kmod.getName m ≠ none)
include hnamed

theorem loads_initModuleMod (h : d.Valid scan) :
    Loads scan d (scan.kmod.newFromPath scan.filename) (initModuleMod scan d) := by
  unfold initModuleMod
  cases hmod : d.mod with
  | some m => exact ⟨(h.mod m hmod).symm, h, rfl⟩
  | none =>
    dsimp only
    cases hnew : scan.kmod.newFromPath scan.filename with
    | none => exact ⟨rfl, h, rfl⟩
    | some m =>
      obtain ⟨name, hname⟩ := Option.ne_none_iff_exists'.1 (hnamed m)
      dsimp only
      rw [hname]
      refine ⟨rfl, ⟨?_, h.info_read, h.info_failed, h.symbols_unread, h.symbols_read,
        h.symbols_failed⟩, rfl⟩
      rintro m' ⟨⟩
      exact hnew

theorem loads_loadInfo (h : d.Valid scan) : Loads scan d scan.info (loadInfo scan d) := by
  obtain ⟨d', hinit, hvalid, hprinted⟩ := (loads_initModuleMod hnamed h).exists
  unfold loadInfo
  rw [hinit]
  cases hm : scan.kmod.newFromPath scan.filename with
  | none => exact ⟨by rw [Scan.info, hm]; rfl, hvalid, hprinted⟩
  | some m =>
    have hinfo : scan.info = scan.kmod.getInfo m := by rw [Scan.info, hm]; rfl
    dsimp only
    cases hstate : d'.infoState with
    | unread =>
      dsimp only
      cases hget : scan.kmod.getInfo m with
      | some infolist =>
        exact ⟨(hinfo.trans hget).symm, hvalid.readInfo (hinfo.trans hget), hprinted⟩
      | none =>
        refine ⟨(hinfo.trans hget).symm, (hvalid.failInfo (hinfo.trans hget)).write _, ?_⟩
        refine (printed_write _ ?_).trans hprinted
        exact fun _ => nofun
    | read => exact ⟨(hvalid.info_read hstate).symm, hvalid, hprinted⟩
    | failed => exact ⟨(hvalid.info_failed hstate).symm, hvalid, hprinted⟩

theorem loads_loadSymbols (h : d.Valid scan) : Loads scan d scan.symbols (loadSymbols scan d) := by
  obtain ⟨d', hinit, hvalid, hprinted⟩ := (loads_initModuleMod hnamed h).exists
  unfold loadSymbols
  rw [hinit]
  cases hm : scan.kmod.newFromPath scan.filename with
  | none => exact ⟨by rw [Scan.symbols, hm]; rfl, hvalid, hprinted⟩
  | some m =>
    have hsymbols := Scan.symbols.eq_def scan
    rw [hm, Option.bind_some] at hsymbols
    have hfail (hnone : scan.symbols = none) {provided : List (Option Bytes)} {o : Output}
        (ho : ∀ filename, o ≠ .path filename) : Loads scan d scan.symbols
          (none, { d' with provided := provided, symbolsState := .failed }.write o) :=
      ⟨hnone.symm, (hvalid.failSymbols hnone).write _, (printed_write _ ho).trans hprinted⟩
    dsimp only
    cases hstate : d'.symbolsState with
    | unread =>
      obtain ⟨hprovided, hrequired⟩ := hvalid.symbols_unread hstate
      dsimp only
      split
      · next herror => exact hfail (hsymbols.trans (if_pos (.inl herror))) fun _ => nofun
      · next hfirst =>
        split
        · next herror => exact hfail (hsymbols.trans (if_pos (.inr herror))) fun _ => nofun
        · next hsecond =>
          rw [if_neg (not_or.2 ⟨hfirst, hsecond⟩)] at hsymbols
          rw [hprovided, hrequired]
          exact ⟨hsymbols.symm, hvalid.readSymbols hsymbols, hprinted⟩
    | read => exact ⟨(hvalid.symbols_read hstate).symm, hvalid, hprinted⟩
    | failed => exact ⟨(hvalid.symbols_failed hstate).symm, hvalid, hprinted⟩

end

/-! ## The outcome for a ruleset -/

/-- A check comes out as `P` says: then the path is printed, and otherwise nothing. -/
structure Checks (scan : Scan R M) (d : ModuleData M) (P : Prop) (result : Bool × ModuleData M) :
    Prop where
  outcome : result.1 = true ↔ P
  valid : result.2.Valid scan
  printed : result.2.printed = d.printed ++ if result.1 then [scan.filename] else []

section
variable {P : Prop} {d' : ModuleData M}

theorem Checks.no (h : d'.Valid scan) (hprinted : d'.printed = d.printed) (hP : ¬P) :
    Checks scan d P (false, d') :=
  ⟨iff_of_false Bool.false_ne_true hP, h, hprinted.trans (List.append_nil _).symm⟩

theorem Checks.yes (h : d'.Valid scan) (hprinted : d'.printed = d.printed) (hP : P) :
    Checks scan d P (true, d'.write (.path scan.filename)) := by
  refine ⟨iff_of_true rfl hP, h.write _, ?_⟩
  rw [printed_write_path, hprinted]
  rfl

variable {result : Bool × ModuleData M}

theorem Checks.of_data (h : Checks scan d' P result) (hprinted : d'.printed = d.printed) :
    Checks scan d P result :=
  ⟨h.outcome, h.valid, hprinted ▸ h.printed⟩

theorem Checks.congr {Q : Prop} (h : Checks scan d P result) (hPQ : P ↔ Q) :
    Checks scan d Q result :=
  ⟨h.outcome.trans hPQ, h.valid, h.printed⟩

theorem not_satisfied_of_info (h : ∀ r ∈ filters, r.keyword.isInfo)
    (hne : filters ≠ []) (hinfo : scan.info = none) : ¬∀ r ∈ filters, Satisfied scan r := by
  intro hall
  obtain ⟨r, hr⟩ := List.exists_mem_of_ne_nil _ hne
  obtain ⟨infolist, hsome, -⟩ := (satisfied_info (h r hr)).1 (hall r hr)
  cases hinfo.symm.trans hsome

theorem not_satisfied_of_symbols (h : ∀ r ∈ filters, r.keyword = .symbol)
    (hne : filters ≠ []) (hsymbols : scan.symbols = none) : ¬∀ r ∈ filters, Satisfied scan r := by
  intro hall
  obtain ⟨r, hr⟩ := List.exists_mem_of_ne_nil _ hne
  obtain ⟨provided, required, hsome, -⟩ := (satisfied_symbol (h r hr)).1 (hall r hr)
  cases hsymbols.symm.trans hsome

variable (hnamed : ∀ m, scan.kmod.getName m ≠ none)
include hnamed

/-- `isMatch` has the kinds of the ruleset that were checked before. -/
theorem checks_checkSymbols (hset : set.Holds rules) (hflags : set.flags ≠ .none) (isMatch : Flags)
    (hmatch : { isMatch with symbols := set.flags.symbols } = set.flags)
    (hsymbols : isMatch.symbols = false) (h : d.Valid scan) :
    Checks scan d (∀ r ∈ set.symbols, Satisfied scan r) (checkSymbols scan set isMatch d) := by
  have hkind (r : Rule R) (hr : r ∈ set.symbols) : r.keyword = .symbol := ((hset.symbols r).1 hr).2
  unfold checkSymbols
  cases hs : set.flags.symbols with
  | true =>
    obtain ⟨d', hload, hvalid, hprinted⟩ := (loads_loadSymbols hnamed h).exists
    rw [if_pos rfl, hload]
    cases hanswer : scan.symbols with
    | none =>
      exact .no hvalid hprinted (not_satisfied_of_symbols hkind (hset.flags_symbols.1 hs) hanswer)
    | some lists =>
      obtain ⟨provided, required⟩ := lists
      have hiff := matchSymbols_iff hanswer hkind
      dsimp only
      split
      · next hall =>
        rw [hs] at hmatch
        rw [if_pos ⟨hflags, hmatch.symm⟩]
        exact .yes hvalid hprinted (hiff.1 hall)
      · next hall => exact .no hvalid hprinted fun hsat => hall (hiff.2 hsat)
  | false =>
    have hnil := (flag_iff hset.flags_symbols).1 hs
    have heq : set.flags = isMatch := by
      rw [hs, ← hsymbols] at hmatch
      exact hmatch.symm
    rw [if_neg Bool.false_ne_true, if_pos ⟨hflags, heq⟩, hnil]
    exact .yes h rfl (by simp)

theorem checks_checkInfo (hset : set.Holds rules) (hflags : set.flags ≠ .none) (h : d.Valid scan) :
    Checks scan d ((∀ r ∈ set.info, Satisfied scan r) ∧ ∀ r ∈ set.symbols, Satisfied scan r)
      (checkInfo scan set ⟨false, false, set.flags.paths⟩ d) := by
  have hkind (r : Rule R) (hr : r ∈ set.info) : r.keyword.isInfo := ((hset.info r).1 hr).2
  unfold checkInfo
  cases hi : set.flags.info with
  | true =>
    obtain ⟨d', hload, hvalid, hprinted⟩ := (loads_loadInfo hnamed h).exists
    rw [if_pos rfl, hload]
    cases hanswer : scan.info with
    | none =>
      exact .no hvalid hprinted fun hsat =>
        not_satisfied_of_info hkind (hset.flags_info.1 hi) hanswer hsat.1
    | some infolist =>
      have hiff := matchInfo_iff hanswer hkind
      dsimp only
      split
      · next hall =>
        have hsym := checks_checkSymbols hnamed hset hflags ⟨true, false, set.flags.paths⟩
          (by rw [← hi]) rfl hvalid
        exact (hsym.of_data hprinted).congr (and_iff_right (hiff.1 hall)).symm
      · next hall => exact .no hvalid hprinted fun hsat => hall (hiff.2 hsat.1)
  | false =>
    rw [if_neg Bool.false_ne_true, (flag_iff hset.flags_info).1 hi]
    have hsym := checks_checkSymbols hnamed hset hflags ⟨false, false, set.flags.paths⟩
      (by rw [← hi]) rfl h
    exact hsym.congr (and_iff_right (by simp)).symm

omit hnamed in
theorem satisfied_by_kind (hset : set.Holds rules) : (∀ r ∈ rules, Satisfied scan r) ↔
    (∀ r ∈ set.paths, Satisfied scan r) ∧ (∀ r ∈ set.info, Satisfied scan r) ∧ ∀ r ∈ set.symbols,
      Satisfied scan r := by
  constructor
  · intro h
    exact ⟨fun r hr => h r ((hset.paths r).1 hr).1, fun r hr => h r ((hset.info r).1 hr).1,
      fun r hr => h r ((hset.symbols r).1 hr).1⟩
  · rintro ⟨hpaths, hinfo, hsymbols⟩ r hr
    cases hk : r.keyword with
    | filename => exact hpaths r ((hset.paths r).2 ⟨hr, hk⟩)
    | symbol => exact hsymbols r ((hset.symbols r).2 ⟨hr, hk⟩)
    | _ => exact hinfo r ((hset.info r).2 ⟨hr, by rw [hk]; rfl⟩)

omit hnamed in
theorem flags_eq_none_iff (hset : set.Holds rules) : set.flags = .none ↔ rules = [] := by
  have hflags : set.flags = .none ↔ set.info = [] ∧ set.symbols = [] ∧ set.paths = [] := by
    rw [← flag_iff hset.flags_info, ← flag_iff hset.flags_symbols, ← flag_iff hset.flags_paths]
    cases set.flags
    simp [Flags.none]
  rw [hflags]
  constructor
  · rintro ⟨hinfo, hsymbols, hpaths⟩
    refine List.eq_nil_iff_forall_not_mem.2 fun r hr => ?_
    cases hk : r.keyword with
    | filename => cases hpaths ▸ (hset.paths r).2 ⟨hr, hk⟩
    | symbol => cases hsymbols ▸ (hset.symbols r).2 ⟨hr, hk⟩
    | _ => cases hinfo ▸ (hset.info r).2 ⟨hr, by rw [hk]; rfl⟩
  · rintro rfl
    refine ⟨List.eq_nil_iff_forall_not_mem.2 fun r hr => ?_,
      List.eq_nil_iff_forall_not_mem.2 fun r hr => ?_,
        List.eq_nil_iff_forall_not_mem.2 fun r hr => ?_⟩
    · cases ((hset.info r).1 hr).1
    · cases ((hset.symbols r).1 hr).1
    · cases ((hset.paths r).1 hr).1

/-- A ruleset matches if all its rules are satisfied. -/
theorem checks_processModuleRuleset (rules : List (Rule R)) (h : d.Valid scan) :
    Checks scan d (Matches scan rules) (processModuleRuleset scan (.ofRules rules) d) := by
  have hset := holds_ofRules rules
  generalize Ruleset.ofRules rules = set at hset
  have hkind (r : Rule R) (hr : r ∈ set.paths) : r.keyword = .filename := ((hset.paths r).1 hr).2
  unfold processModuleRuleset
  split
  · next hnone => exact .no h rfl fun hmatches => hmatches.1 ((flags_eq_none_iff hset).1 hnone)
  · next hflags =>
    have hne : rules ≠ [] := fun hnil => hflags ((flags_eq_none_iff hset).2 hnil)
    have hmatches : Matches scan rules ↔ ∀ r ∈ rules, Satisfied scan r := and_iff_right hne
    rw [satisfied_by_kind hset] at hmatches
    split
    · next hpaths =>
      refine .no h rfl fun hall => ?_
      cases hpaths.2.symm.trans ((matchFilename_iff hkind).2 (hmatches.1 hall).1)
    · next hpaths =>
      -- the rules for the path are satisfied, or there are none
      have hsat : ∀ r ∈ set.paths, Satisfied scan r := by
        intro r hr
        have hflag := hset.flags_paths.2 (List.ne_nil_of_mem hr)
        refine (matchFilename_iff hkind).1 ?_ r hr
        exact Bool.not_eq_false _ ▸ fun hfalse => hpaths ⟨hflag, hfalse⟩
      have hisMatch : (if set.flags.paths then { Flags.none with paths := true } else Flags.none) =
          ⟨false, false, set.flags.paths⟩ := by
        cases set.flags.paths <;> rfl
      dsimp only
      rw [hisMatch]
      split
      · next heq =>
        have hnoinfo := (flag_iff hset.flags_info).1 (by rw [heq])
        have hnosymbols := (flag_iff hset.flags_symbols).1 (by rw [heq])
        refine .yes h rfl (hmatches.2 ⟨hsat, ?_, ?_⟩)
        · simp [hnoinfo]
        · simp [hnosymbols]
      · exact (checks_checkInfo hnamed hset hflags h).congr
          ((and_iff_right hsat).symm.trans hmatches.symm)

/-- The data after some rulesets that were checked before. -/
def afterRulesets (scan : Scan R M) (before : List (List (Rule R))) : ModuleData M :=
  before.foldl (fun d rules => (processModuleRuleset scan (.ofRules rules) d).2) .init

theorem valid_afterRulesets (before : List (List (Rule R))) :
    (afterRulesets scan before).Valid scan := by
  induction before using List.reverseRecOn with
  | nil => exact valid_init
  | append_singleton before rules ih =>
    rw [afterRulesets, List.foldl_concat]
    exact (checks_processModuleRuleset hnamed rules ih).valid

/-- The path is printed once if some ruleset matches. -/
theorem printed_processModule (rulesets : List (List (Rule R))) (h : d.Valid scan) :
    ((∃ rules ∈ rulesets, Matches scan rules) →
      (processModule scan (rulesets.map .ofRules) d).printed = d.printed ++ [scan.filename]) ∧
    ((¬∃ rules ∈ rulesets, Matches scan rules) →
      (processModule scan (rulesets.map .ofRules) d).printed = d.printed) := by
  induction rulesets generalizing d with
  | nil => exact ⟨fun ⟨_, hmem, _⟩ => (nomatch hmem), fun _ => rfl⟩
  | cons rules rulesets ih =>
    obtain ⟨houtcome, hvalid, hprinted⟩ := checks_processModuleRuleset hnamed rules h
    rw [List.map_cons, processModule]
    rcases hcheck : processModuleRuleset scan (.ofRules rules) d with ⟨b, d'⟩
    rw [hcheck] at houtcome hvalid hprinted
    dsimp only at houtcome hvalid hprinted
    cases b with
    | true =>
      have hmatches := houtcome.1 rfl
      exact ⟨fun _ => hprinted, fun hnone => absurd ⟨rules, List.mem_cons_self, hmatches⟩ hnone⟩
    | false =>
      have hnot : ¬Matches scan rules := fun hmatches => nomatch houtcome.2 hmatches
      have hexists : (∃ rules' ∈ rules :: rulesets, Matches scan rules') ↔
          ∃ rules' ∈ rulesets, Matches scan rules' := by
        rw [List.exists_mem_cons_iff, or_iff_right hnot]
      rw [hexists]
      have hsame : d'.printed = d.printed := hprinted.trans (List.append_nil _)
      rw [← hsame]
      exact ih hvalid

end

/-- The path is printed once if some ruleset with a rule has all its rules satisfied, and otherwise
not at all; and the outcome for a ruleset does not depend on those that were checked before. libkmod
gives a name to every module. -/
theorem processModule_prints_iff (scan : Scan R M) (hnamed : ∀ m, scan.kmod.getName m ≠ none)
    (rulesets : List (List (Rule R))) :
    ((∃ rules ∈ rulesets, Matches scan rules) →
      (processModule scan (rulesets.map .ofRules) .init).printed = [scan.filename]) ∧
    ((¬∃ rules ∈ rulesets, Matches scan rules) →
      (processModule scan (rulesets.map .ofRules) .init).printed = []) ∧
    ∀ before rules, (processModuleRuleset scan (.ofRules rules) (afterRulesets scan before)).1 =
      true ↔
      Matches scan rules := by
  obtain ⟨hyes, hno⟩ := printed_processModule hnamed rulesets valid_init
  refine ⟨hyes, hno, fun before rules => ?_⟩
  exact (checks_processModuleRuleset hnamed rules (valid_afterRulesets hnamed before)).outcome

/-- The module `/m.ko` with the alias `a`, which provides `s` and has no table of required symbols;
expressions are plain strings. -/
def sampleScan : Scan Bytes Unit where
  kmod :=
    { newFromPath := fun _ => some ()
      getName := fun _ => some (text "m")
      getInfo := fun _ => some [(some Keyword.alias.text, some (text "a"))]
      getSymbols := fun _ => .list [some (text "s")]
      getDependencySymbols := fun _ => .noData }
  regexec := fun preg val => preg <:+: val
  filename := text "/m.ko"

/-- The second of two rulesets matches: `filename m`, `not-alias q` and `symbol s`. -/
theorem processModule_prints_sample : (processModule sampleScan ([[⟨.isMatch, .symbol, text "z"⟩],
        [⟨.isMatch, .filename, text "m"⟩, ⟨.notMatch, .alias, text "q"⟩,
          ⟨.isMatch, .symbol, text "s"⟩]].map
          .ofRules) .init).printed = [text "/m.ko"] := by
  refine (processModule_prints_iff sampleScan (fun _ => nofun) _).1
    ⟨_, .tail _ (.head _), List.cons_ne_nil _ _, ?_⟩
  intro r hr
  simp only [List.mem_cons, List.not_mem_nil, or_false] at hr
  rcases hr with rfl | rfl | rfl
  · show sampleScan.regexec [109] sampleScan.filename = true
    decide
  · refine ⟨_, rfl, ?_⟩
    rintro ⟨value, hmem, hmatch⟩
    cases List.mem_singleton.1 hmem
    cases hmatch
  · exact ⟨_, _, rfl, [115], .inl (.head _), by decide⟩

end

end MakeInitrd.Scanmod
