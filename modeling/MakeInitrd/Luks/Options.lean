import MakeInitrd.Lib.Glob
import MakeInitrd.Lib.Words

/-!
# The options of a crypttab entry

`crypttab_entry` of `085-luks` goes through the options of the entry twice: the first loop finds the
type of the volume, and the second one turns the options into arguments for `cryptsetup`. `in_list`
is to keep out the options that make no sense for the type. But it compares its first argument with
all of its arguments, the first one among them, so whatever the type is, the option is kept out
(`inList_cons`). `shell_var_is_yes` of libshell is a parameter.
-/

namespace MakeInitrd.Luks

open CMem Words List

/-- The values of `luks_type` -/
inductive VolumeType where
  | plain
  | bitlk
  | tcrypt
  | luks
  deriving DecidableEq, Repr

/-! ## The options -/

/-- A pattern of a `case` over the options. -/
inductive Pattern where
  | word (w : String)
  /-- `name=*` -/
  | value (name : String)

def Pattern.accepts (o : Bytes) : Pattern → Bool
  | .word w => o = text w
  | .value name => (text name ++ [61]).isPrefixOf o

/-- The entry of the first branch that accepts the option. -/
def firstCase {α : Type} (branches : List (List Pattern × α)) (o : Bytes) : Option α :=
  (branches.find? fun b => b.1.any (Pattern.accepts o)).map Prod.snd

/-- The type an option selects, if any -/
def typeOf : Bytes → Option VolumeType :=
  firstCase [
    ([.word "plain"], .plain), ([.word "bitlk"], .bitlk), ([.word "tcrypt"], .tcrypt),
      ([.word "luks"], .luks),
    ([.word "tcrypt-hidden", .word "tcrypthidden"], .tcrypt),
    ([.word "tcrypt-system"], .tcrypt),
    ([.word "tcrypt-veracrypt", .word "veracrypt"], .tcrypt),
    ([.value "tcrypt-keyfile"], .tcrypt)]

/-- What the second loop does with an option. -/
inductive Action where
  /-- `in_list "$luks_type" types… || luks_args+=(flag "${o#*=}")` -/
  | unless (types : List VolumeType) (flag : String)
  /-- `luks_args+=(flag "${o#*=}")` -/
  | value (flag : String)
  /-- `luks_args+=(flag)` -/
  | flag (flag : String)
  | emptyPassword
  | headless
  | tries
  deriving DecidableEq, Repr

def actionOf : Bytes → Option Action :=
  firstCase [([.value "cipher"], .unless [.luks, .tcrypt] "--cipher"),
    ([.value "hash"], .unless [.luks, .tcrypt] "--hash"),
    ([.value "size"], .unless [.luks, .tcrypt] "--size"),
    ([.value "keyfile-offset"], .unless [.tcrypt] "--keyfile-offset"),
    ([.value "keyfile-size"], .unless [.tcrypt, .plain] "--keyfile-size"),
    ([.word "try-empty-password", .value "try-empty-password"], .emptyPassword),
    ([.word "headless", .value "headless"], .headless),
    ([.value "tries"], .tries),
    ([.value "header"], .value "--header"),
    ([.value "tcrypt-keyfile"], .value "--key-file"),
    ([.value "keyslot", .value "key-slot"], .value "--key-slot"),
    ([.value "offset"], .value "--offset"),
    ([.value "skip"], .value "--skip"),
    ([.value "sector-size"], .value "--sector-size"),
    ([.word "allow-discards", .word "discard"], .flag "--allow-discards"),
    ([.word "read-only", .word "readonly"], .flag "--readonly"),
    ([.word "same-cpu-crypt"], .flag "--perf-same_cpu_crypt"),
    ([.word "submit-from-crypt-cpus"], .flag "--perf-submit_from_crypt_cpus"),
    ([.word "no-read-workqueue"], .flag "--perf-no_read_workqueue"),
    ([.word "no-write-workqueue"], .flag "--perf-no_write_workqueue"),
    ([.word "tcrypt-system"], .flag "--tcrypt-system"),
    ([.word "tcrypt-hidden", .word "tcrypthidden"], .flag "--tcrypt-hidden"),
    ([.word "tcrypt-veracrypt", .word "veracrypt"], .flag "--veracrypt"),
    ([.word "verify"], .flag "--verify-passphrase")]

/-- `"${o#*=}"` -/
def valueOf (o : Bytes) : Bytes := Glob.hash [.star, .lit 61] o

/-- `in_list "$@"`; the first argument is looked for among all of them. -/
def inList {α : Type} [DecidableEq α] : List α → Bool
  | [] => false
  | n :: args => (n :: args).any (n = ·)

/-! ## The loops -/

/-- The variables of `handler` that `crypttab_entry` sets. -/
structure Vars where
  volume : Bytes
  type : VolumeType
  args : List Bytes
  emptyPassword : Bool
  headless : Bool
  tries : Bytes
  keyfile : Bytes
  rc : Nat

/-- The variables as `handler` declares them; `args` may have an `--allow-discards` already. -/
def Vars.ofHandler (volume : Bytes) (args : List Bytes) : Vars where
  volume := volume
  type := .luks
  args := args
  emptyPassword := false
  headless := false
  tries := text "3"
  keyfile := []
  rc := 0

/-- `[ -n "${o##*=*}" ] || shell_var_is_yes "${o#*=}"` -/
def isSet (isYes : Bytes → Bool) (o : Bytes) : Bool :=
  Glob.hashHash [.star, .lit 61, .star] o ≠ [] || isYes (valueOf o)

/-- The `case` of the first loop. -/
def selectType (v : Vars) (o : Bytes) : Vars := { v with type := (typeOf o).getD v.type }

/-- The `case` of the second loop. -/
def addOption (isYes : Bytes → Bool) (v : Vars) (o : Bytes) : Vars :=
  match actionOf o with
  | none => v
  | some (.unless types flag) =>
    if inList (v.type :: types) then v else { v with args := v.args ++ [text flag, valueOf o] }
  | some (.value flag) => { v with args := v.args ++ [text flag, valueOf o] }
  | some (.flag flag) => { v with args := v.args ++ [text flag] }
  | some .emptyPassword => { v with emptyPassword := isSet isYes o }
  | some .headless => { v with headless := isSet isYes o }
  | some .tries => { v with tries := if valueOf o = text "0" then text "-1" else valueOf o }

/-- The two loops over the options. -/
def crypttabOptions (isYes : Bytes → Bool) (v : Vars) (options : List Bytes) : Vars :=
  options.foldl (addOption isYes) (options.foldl selectType v)

/-! ## What the options stand for -/

/-- The type of the last option that selects one, or luks -/
def selectedType (options : List Bytes) : VolumeType :=
  (options.filterMap typeOf).getLast?.getD .luks

/-- The arguments an option stands for, given the type of the volume -/
def argumentsFor (type : VolumeType) (o : Bytes) : List Bytes :=
  match actionOf o with
  | some (.unless types flag) => if type ∈ types then [] else [text flag, valueOf o]
  | some (.value flag) => [text flag, valueOf o]
  | some (.flag flag) => [text flag]
  | _ => []

/-- The arguments an option is given -/
def argumentsGiven (o : Bytes) : List Bytes :=
  match actionOf o with
  | some (.value flag) => [text flag, valueOf o]
  | some (.flag flag) => [text flag]
  | _ => []

variable {isYes : Bytes → Bool} {v : Vars} {o : Bytes} {options : List Bytes} {type : VolumeType}

theorem inList_cons {α : Type} [DecidableEq α] (n : α) (args : List α) :
    inList (n :: args) = true := by
  simp [inList]

theorem selectType_foldl (v : Vars) (options : List Bytes) :
    options.foldl selectType v =
      { v with type := (options.filterMap typeOf).getLast?.getD v.type } := by
  induction options generalizing v with
  | nil => rfl
  | cons o options ih =>
    rw [foldl_cons, ih, selectType, filterMap_cons]
    cases typeOf o with
    | none => rfl
    | some t => simp [getLast?_cons]

theorem addOption_spec (isYes : Bytes → Bool) (v : Vars) (o : Bytes) :
    (addOption isYes v o).type = v.type ∧ (addOption isYes v o).args = v.args ++
      argumentsGiven o := by
  rw [addOption, argumentsGiven]
  split <;> simp [inList_cons, *]

theorem addOption_foldl (isYes : Bytes → Bool) (v : Vars) (options : List Bytes) :
    (options.foldl (addOption isYes) v).type = v.type ∧
      (options.foldl (addOption isYes) v).args = v.args ++ options.flatMap argumentsGiven := by
  induction options generalizing v with
  | nil => simp
  | cons o options ih =>
    obtain ⟨htype, hargs⟩ := addOption_spec isYes v o
    rw [foldl_cons, (ih _).1, (ih _).2, htype, hargs, flatMap_cons, append_assoc]
    exact ⟨rfl, rfl⟩

theorem crypttabOptions_spec (isYes : Bytes → Bool) (v : Vars) (options : List Bytes) :
    (crypttabOptions isYes v options).type = (options.filterMap typeOf).getLast?.getD v.type ∧
      (crypttabOptions isYes v options).args = v.args ++ options.flatMap argumentsGiven := by
  obtain ⟨htype, hargs⟩ := addOption_foldl isYes (options.foldl selectType v) options
  rw [crypttabOptions, htype, hargs, selectType_foldl]
  exact ⟨rfl, rfl⟩

/-! ## The options that are kept out -/

theorem argumentsGiven_eq_nil_or (type : VolumeType) (o : Bytes) :
    argumentsGiven o = [] ∨ argumentsGiven o = argumentsFor type o := by
  rw [argumentsGiven, argumentsFor]
  cases actionOf o with
  | none => exact Or.inl rfl
  | some action => cases action <;> simp

theorem argumentsGiven_eq_iff :
    argumentsGiven o = argumentsFor type o ↔ ∀ types flag, actionOf o = some (.unless types flag) →
      type ∈ types := by
  rw [argumentsGiven, argumentsFor]
  cases actionOf o with
  | none => simp
  | some action => cases action <;> simp

/-- Lists that are put together of parts, some of which are left out, are the same only if none is.
-/
theorem flatMap_eq_flatMap_iff {α β : Type} {f g : α → List β} {l : List α}
    (h : ∀ a, f a = [] ∨ f a = g a) :
    l.flatMap f = l.flatMap g ↔ ∀ a ∈ l, f a = g a := by
  have hle (l : List α) : (l.flatMap f).length ≤ (l.flatMap g).length := by
    induction l with
    | nil => exact Nat.le_refl _
    | cons a l ih =>
      rw [flatMap_cons, flatMap_cons, length_append, length_append]
      rcases h a with ha | ha
      · rw [ha, length_nil]
        omega
      · rw [ha]
        omega
  induction l with
  | nil => simp
  | cons a l ih =>
    rw [flatMap_cons, flatMap_cons, forall_mem_cons]
    constructor
    · intro heq
      have ha : f a = g a := by
        rcases h a with ha | ha
        · have hlen := congrArg length heq
          rw [ha, nil_append, length_append] at hlen
          have hg : g a = [] := length_eq_zero_iff.1 (by have := hle l; omega)
          rw [ha, hg]
        · exact ha
      rw [ha, append_cancel_left_eq] at heq
      exact ⟨ha, ih.1 heq⟩
    · rintro ⟨ha, hl⟩
      rw [ha, ih.2 hl]

/-- The options of an entry are translated as the type of the volume asks for if and only if none of
them is one that `in_list` should let through. -/
theorem crypttabOptions_iff (isYes : Bytes → Bool) (volume : Bytes) (args options : List Bytes) :
    let v := crypttabOptions isYes (.ofHandler volume args) options
    (v.type = selectedType options ∧ v.args = args ++
      options.flatMap (argumentsFor (selectedType options))) ↔
      ∀ o ∈ options, ∀ types flag, actionOf o = some (.unless types flag) →
        selectedType options ∈ types := by
  intro v
  obtain ⟨htype, hargs⟩ := crypttabOptions_spec isYes (.ofHandler volume args) options
  have htype : v.type = selectedType options := htype
  have hargs : v.args = args ++ options.flatMap argumentsGiven := hargs
  rw [and_iff_right htype, hargs, append_cancel_left_eq,
    flatMap_eq_flatMap_iff (argumentsGiven_eq_nil_or _)]
  exact forall₂_congr fun o _ => argumentsGiven_eq_iff

/-- The cipher of a plain volume is left out. -/
theorem not_crypttabOptions :
    ¬ ∀ (isYes : Bytes → Bool) (volume : Bytes) (args options : List Bytes),
      (crypttabOptions isYes (.ofHandler volume args) options).args =
        args ++ options.flatMap (argumentsFor (selectedType options)) := by
  intro h
  have hargs := h (fun _ => false) [] [] [text "plain", text "cipher=aes"]
  exact absurd hargs (by decide +kernel)

end MakeInitrd.Luks
