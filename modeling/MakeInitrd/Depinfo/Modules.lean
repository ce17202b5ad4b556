import MakeInitrd.Lib.Words

/-!
# `depinfo`

`depinfo` prints the paths of modules with those they depend on, the names of builtin modules and
the paths of firmware. The functions of libkmod (`Kmod`) and the calls that look for files (`Files`)
are parameters. The recursion is bounded by `fuel`; a run that needs more has no result.
-/

namespace MakeInitrd.Depinfo

open CMem
open Words (text)

/-! ## What the program asks for -/

/-- The keys of module information that are read. -/
inductive InfoKey where
  | depends
  | softdep
  | weakdep
  | firmware
  | other
deriving DecidableEq

/-- What libkmod tells about modules. A list that is NULL is empty. -/
structure Kmod (M : Type) where
  /-- `kmod_module_get_name` -/
  name : M → Bytes
  /-- `kmod_module_get_path` -/
  path : M → Option Bytes
  /-- `kmod_module_new_from_lookup`; `none` if it fails -/
  lookup : Bytes → Option (List M)
  /-- `kmod_module_get_info`; `none` if it fails -/
  info : M → Option (List (InfoKey × Bytes))
  /-- the lists `pre` and `post` of `kmod_module_get_softdeps`; `none` if it fails -/
  softdeps : M → Option (List M × List M)
  /-- `kmod_module_get_weakdeps`; `none` if it fails or there is no such function -/
  weakdeps : M → Option (List M)
  /-- `KMOD_FILTER_BLACKLIST` drops the module. -/
  blacklisted : M → Bool
  /-- `KMOD_FILTER_BUILTIN` drops the module. -/
  builtin : M → Bool

/-- A `struct kernel_builtin`, without `tracked`. -/
structure KernelBuiltin where
  name : Bytes
  aliases : List Bytes
  firmware : List Bytes
deriving DecidableEq

/-- What the calls say about files. -/
structure Files where
  /-- `access` of a path -/
  access : Bytes → Bool
  /-- `glob` of a pattern -/
  glob : Bytes → List Bytes
  /-- `fnmatch` of a pattern and a string, with `FNM_NOESCAPE` -/
  fnmatch : Bytes → Bytes → Bool

/-- The flags of `opts`. -/
structure Options where
  showDeps : Bool
  showModules : Bool
  showFirmware : Bool
  showPrefix : Bool
  showBuiltin : Bool
  showMissingFirmware : Bool
deriving DecidableEq

/-- The initial value of `opts`. -/
def Options.default : Options :=
  ⟨true, true, true, true, true, false⟩

structure Env (M : Type) where
  kmod : Kmod M
  files : Files
  opts : Options
  /-- `--use-blacklist` -/
  useBlacklist : Bool
  kversion : Bytes
  /-- `firmware_class_path`, which may be empty -/
  firmwareClassPath : Bytes
  /-- `firmware_dir` -/
  firmwareDir : Bytes
  /-- the tree `kbuiltin_tree` -/
  kbuiltinTree : List KernelBuiltin
  /-- `kbuiltin_with_aliases` -/
  kbuiltinWithAliases : List KernelBuiltin

/-- The words before the values that are shown. -/
inductive Keyword where
  | module
  | builtin
  | firmware
  | missingFirmware
deriving DecidableEq

/-- What is written, to either stream. -/
inductive Output where
  /-- `show_with_prefix`: the indentation, whether the keyword is printed, the keyword and the value
  -/
  | shown (indent : Nat) (prefixed : Bool) (keyword : Keyword) (value : Bytes)
  | aliasNotFound (name : Bytes)
  | moduleNotFound (name : Bytes)
  | noInformation (name : Bytes)
  | firmwarePathTooLong (dir : Bytes)
deriving DecidableEq

/-- The variables that a run changes. -/
structure State where
  /-- `tracked_modules` -/
  tracked : List Bytes
  /-- the names of the builtins with `tracked` set -/
  trackedBuiltins : List Bytes
  /-- `show_tree` -/
  showTree : Nat
  out : List Output
deriving DecidableEq

namespace State

variable (s : State)

def write (o : Output) : State :=
  { s with out := s.out ++ [o] }

/-- `if (show_tree) show_tree++` -/
def deeper : State :=
  { s with showTree := if s.showTree = 0 then 0 else s.showTree + 1 }

/-- `if (show_tree > 1) show_tree--` -/
def higher : State :=
  { s with showTree := if 1 < s.showTree then s.showTree - 1 else s.showTree }

end State

/-- The parts of a string between delimiters that are not empty, as `strtok_r` finds them. -/
def tokens (delim : List UInt8) (str : Bytes) : List Bytes :=
  (str.splitOnP (· ∈ delim)).filter (· ≠ [])

/-- A loop that goes through a list and returns a negative number if one of the calls does; `none`
if a call has no result. -/
def forEach {α : Type} (call : α → State → Option (Bool × State)) :
    List α → State → Option (Bool × State)
  | [], s => some (false, s)
  | x :: xs, s => do
    let (failed, s) ← call x s
    let (failed', s) ← forEach call xs s
    some (failed || failed', s)

section
variable {M : Type} (env : Env M)

/-- `show_with_prefix` -/
def showWithPrefix (s : State) (keyword : Keyword) (value : Bytes) : State :=
  s.write (.shown (s.showTree - 1) env.opts.showPrefix keyword value)

/-! ## Firmware -/

/-- `expand_pattern` -/
def expandPattern (keyword : Keyword) (pattern : Bytes) (s : State) : Bool × State :=
  if env.files.access pattern then (true, showWithPrefix env s keyword pattern)
  else
    let paths := env.files.glob pattern
    (paths ≠ [], paths.foldl (fun s path => showWithPrefix env s keyword path) s)

/-- `suffixes`: nothing, `.zst`, `.xz`, `.bz2` and `.gz` -/
def suffixes : List Bytes :=
  [[], text ".zst", text ".xz", text ".bz2", text ".gz"]

/-- The first of the patterns that leads to a file. -/
def expandFirst : List Bytes → State → Bool × State
  | [], s => (false, s)
  | pattern :: patterns, s =>
    match expandPattern env .firmware pattern s with
    | (true, s) => (true, s)
    | (false, s) => expandFirst patterns s

/-- `MAXPATHLEN` -/
def maxPathLen : Nat := 4096

/-- `process_firmware_pattern`, where the patterns fit the buffer. -/
def processFirmwarePattern (basedir pattern : Bytes) (s : State) : Bool × State :=
  if maxPathLen ≤ basedir.length then (false, s.write (.firmwarePathTooLong basedir))
  else
    expandFirst env (suffixes.flatMap fun suffix =>
      [basedir ++ 47 :: env.kversion ++ 47 :: pattern ++ suffix,
        basedir ++ 47 :: pattern ++ suffix]) s

/-- The directories in turn. -/
def processFirmwareDirs (pattern : Bytes) : List Bytes → State → State
  | [], s =>
    if env.opts.showMissingFirmware then showWithPrefix env s .missingFirmware pattern else s
  | dir :: dirs, s =>
    match processFirmwarePattern env dir pattern s with
    | (true, s) => s
    | (false, s) => processFirmwareDirs pattern dirs s

/-- `process_firmware` -/
def processFirmware (pattern : Bytes) (s : State) : State :=
  let dirs := tokens [58] env.firmwareDir
  processFirmwareDirs env pattern (if env.firmwareClassPath = [] then dirs
    else env.firmwareClassPath :: dirs) s

/-- `find_kernel_builtin` -/
def findKernelBuiltin (str : Bytes) : Option KernelBuiltin :=
  if str = [] then none
  else
    match env.kbuiltinTree.find? fun b => b.name = str with
    | some b => some b
    | none => env.kbuiltinWithAliases.find? fun b => b.aliases.any fun e => env.files.fnmatch e str

/-- What `process_builtin` shows for a builtin. -/
def showBuiltin (name : Bytes) (firmware : List Bytes) (s : State) : State :=
  let s := if env.opts.showBuiltin then (showWithPrefix env s .builtin name).deeper else s
  let s :=
    if env.opts.showFirmware then firmware.foldl (fun s pattern => processFirmware env pattern s) s
    else s
  if env.opts.showBuiltin then s.higher else s

/-- `process_builtin` -/
def processBuiltin (name : Bytes) (s : State) : State :=
  match findKernelBuiltin env name with
  | none => showBuiltin env name [] s
  | some b =>
    if b.name ∈ s.trackedBuiltins then s
    else showBuiltin env b.name b.firmware { s with trackedBuiltins := b.name :: s.trackedBuiltins }

/-! ## Modules -/

/-- `tracked_module` -/
def trackedModule (m : M) (s : State) : Bool × State :=
  match env.kmod.path m with
  | none => (false, s)
  | some path =>
    if path ∈ s.tracked then (true, s) else (false, { s with tracked := path :: s.tracked })

/-- `module_in_list` -/
def moduleInList (m : M) (list : List M) : Bool :=
  list.any fun m' => env.kmod.name m' = env.kmod.name m

/-- The modules that the blacklist leaves. -/
def applyBlacklist (list : List M) : List M :=
  if env.useBlacklist then list.filter fun m => !env.kmod.blacklisted m else list

/-- `ALIAS_REQUIRED` and `ALIAS_OPTIONAL`. -/
inductive AliasNeed where
  | optional
  | required
deriving DecidableEq

/-- A `softdep` token: the words `pre:` and `post:` are dropped, also before a name. -/
def softToken (token : Bytes) : Option Bytes :=
  let pre : Bytes := text "pre:"
  let post : Bytes := text "post:"
  if token = pre ∨ token = post then none
  else
    let name :=
      if pre <+: token then token.drop 4 else if post <+: token then token.drop 5 else token
    if name = [] then none else some name

/-- `" \t\r\n"` -/
def blanks : List UInt8 := [32, 9, 13, 10]

section
variable (rec : M → State → Option (Bool × State))

/-- `process_module_list`, with `depinfo` for `rec`. -/
def processModuleList (list : List M) (s : State) : Option (Bool × State) :=
  let list := applyBlacklist env list
  let filtered := list.filter fun m => !env.kmod.builtin m
  let s := list.foldl (fun s m =>
    if moduleInList env m filtered then s else processBuiltin env (env.kmod.name m) s) s
  forEach (fun m s =>
    if (findKernelBuiltin env (env.kmod.name m)).isSome then
      some (false, processBuiltin env (env.kmod.name m) s)
    else rec m s) filtered s

/-- `depinfo_alias` -/
def depinfoAlias (need : AliasNeed) (name : Bytes) (s : State) : Option (Bool × State) :=
  if (findKernelBuiltin env name).isSome then some (false, processBuiltin env name s)
  else
    match env.kmod.lookup name with
    | none =>
      if need = .optional then some (false, s) else some (true, s.write (.aliasNotFound name))
    | some [] =>
      if need = .optional then some (false, s) else some (true, s.write (.moduleNotFound name))
    | some list => processModuleList env rec list s

/-- `process_soft_deps` -/
def processSoftDeps (m : M) (s : State) : Option (Bool × State) :=
  match env.kmod.softdeps m with
  | none => some (false, s)
  | some (pre, post) => forEach (processModuleList env rec) [pre, post] s

/-- `process_weak_deps` -/
def processWeakDeps (m : M) (s : State) : Option (Bool × State) :=
  match env.kmod.weakdeps m with
  | none => some (false, s)
  | some weak => processModuleList env rec weak s

/-- `process_depends` -/
def processDepends (depends : Bytes) : State → Option (Bool × State) :=
  forEach (depinfoAlias env rec .required) (tokens (44 :: blanks) depends)

/-- `process_soft_depends` -/
def processSoftDepends (depends : Bytes) : State → Option (Bool × State) :=
  forEach (depinfoAlias env rec .optional) ((tokens blanks depends).filterMap softToken)

/-- `process_weak_depends` -/
def processWeakDepends (depends : Bytes) : State → Option (Bool × State) :=
  forEach (depinfoAlias env rec .optional) (tokens blanks depends)

/-- The body of the loop over the module information. -/
def processInfo (entry : InfoKey × Bytes) (s : State) : Option (Bool × State) :=
  let deps := env.opts.showDeps && env.opts.showModules
  match entry.1 with
  | .depends => if deps then processDepends env rec entry.2 s else some (false, s)
  | .softdep => if deps then processSoftDepends env rec entry.2 s else some (false, s)
  | .weakdep => if deps then processWeakDepends env rec entry.2 s else some (false, s)
  | .firmware => some (false, if env.opts.showFirmware then processFirmware env entry.2 s else s)
  | .other => some (false, s)

/-- The part of `depinfo` after the information about the module has been read. -/
def showModule (m : M) (list : List (InfoKey × Bytes)) (s : State) : Option (Bool × State) := do
  let s :=
    if env.opts.showModules then
      (showWithPrefix env s .module ((env.kmod.path m).getD [])).deeper
    else s
  let (failed, s) ← forEach (processInfo env rec) list s
  let (failed', s) ←
    if env.opts.showDeps && env.opts.showModules then
      forEach (fun deps s => deps m s) [processSoftDeps env rec, processWeakDeps env rec] s
    else some (false, s)
  some (failed || failed', s.higher)

end

/-- `depinfo` -/
def depinfo : Nat → M → State → Option (Bool × State)
  | 0, _, _ => none
  | fuel + 1, m, s =>
    match trackedModule env m s with
    | (true, s) => some (false, s)
    | (false, s) =>
      match env.kmod.info m with
      | none => some (true, s.write (.noInformation (env.kmod.name m)))
      | some list => showModule env (depinfo fuel) m list s

/-- The state in which the arguments are processed, with `--tree` or without. -/
def State.start (tree : Bool) : State :=
  ⟨[], [], if tree then 1 else 0, []⟩

/-- The loop of `main` over the arguments that are names or aliases; the run fails if it returns
`true`. -/
def processNames (fuel : Nat) (args : List Bytes) (tree : Bool) : Option (Bool × State) :=
  forEach (depinfoAlias env (depinfo env fuel) .required) args (State.start tree)

end

end MakeInitrd.Depinfo
