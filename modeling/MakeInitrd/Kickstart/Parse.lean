import MakeInitrd.Lib.Glob
import MakeInitrd.Lib.Words

/-!
# Parsing a kickstart script

`ks_parse` reads a script line by line. A command of its body is kept with the sum of its line
number and of the phase of the command; `ks_parse_stream` adds the steps that the script generates,
and the lines are then sorted by these numbers (`kickstart`). The lines of a section are kept apart.

The rest of the system is an `Env`: the files, the utilities that are installed, and the words into
which `quote_shell_args` and `eval "set -- $args"` split a line.
-/

namespace MakeInitrd.Kickstart

open CMem Glob Words

/-! ## The tables of commands -/

def ksIgnored : Nat := 9999000000

/-- `KS_ORDERS` -/
def ksOrders : List (Nat × String) :=
  [(ksIgnored, "autostep"), (ksIgnored, "device"), (ksIgnored, "deviceprobe"),
    (ksIgnored, "dmraid"),
    (ksIgnored, "install"), (ksIgnored, "interactive"), (ksIgnored, "langsupport"),
      (ksIgnored, "method"),
    (ksIgnored, "monitor"), (ksIgnored, "mouse"), (ksIgnored, "multipath"), (ksIgnored, "upgrade"),
    (0, "cdrom"), (0, "cmdline"), (0, "driverdisk"), (0, "eula"), (0, "firstboot"),
      (0, "graphical"),
    (0, "harddrive"), (0, "hmc"), (0, "mediacheck"), (0, "module"), (0, "nfs"), (0, "nvdimm"),
      (0, "rescue"),
    (0, "snapshot"), (0, "text"), (0, "updates"), (0, "vnc"), (1000000000, "ks_step_begin"),
    (2000000000, "lang"), (2000000000, "url"), (2100000000, "ks_step_pre"),
      (3000000000, "ignoredisk"),
    (3100000000, "clearpart"), (3200000000, "autopart"), (3200000000, "reqpart"),
      (3300000000, "btrfs"),
    (3300000000, "crypto"), (3300000000, "fcoe"), (3300000000, "iscsi"), (3300000000, "iscsiname"),
    (3300000000, "logvol"), (3300000000, "makefs"), (3300000000, "part"), (3300000000, "partition"),
    (3300000000, "raid"), (3300000000, "volgroup"), (3300000000, "zerombr"), (3300000000, "zfcp"),
    (3300000000, "zipl"), (3300000000, "zpool"), (3300000000, "zfs"), (4000000000, "ks_step_mount"),
    (5000000000, "ks_step_pre_install"), (5100000000, "liveimg"), (6000000000, "repo"),
    (7000000000, "ks_step_packages"), (8000000000, "auth"), (8000000000, "authconfig"),
    (8000000000, "authselect"), (8000000000, "bootloader"), (8000000000, "firewall"),
      (8000000000, "group"),
    (8000000000, "keyboard"), (8000000000, "logging"), (8000000000, "network"),
      (8000000000, "ostreesetup"),
    (8000000000, "realm"), (8000000000, "rootpw"), (8000000000, "selinux"),
      (8000000000, "services"),
    (8000000000, "skipx"), (8000000000, "sshkey"), (8000000000, "sshpw"),
      (8000000000, "timesource"),
    (8000000000, "timezone"), (8000000000, "user"), (8000000000, "xconfig"),
      (9000000000, "ks_step_sync"),
    (9100000000, "ks_step_post"), (9200000000, "halt"), (9200000000, "poweroff"),
      (9200000000, "reboot"),
    (9200000000, "shutdown")]

/-- The arrays, without `ks_` in their names -/
def ksArrays : List (String × List String) :=
  [("begin", []), ("onerror", []), ("packages", []), ("post", []), ("pre", []), ("pre_install", []),
    ("traceback", []),
    ("requires_raid", ["mdadm"]),
    ("requires_clearpart", ["findmnt", "wipefs", "sfdisk", "umount"]),
    ("requires_ks_guess_swap_size", ["numfmt"]),
    ("requires_ks_fstab", ["blkid", "sha256sum"]),
    ("requires_makefs", ["wipefs", "mkswap"]),
    ("requires_crypto", ["cryptsetup"]),
    ("requires_ext4", ["e2fsck", "resize2fs"]),
    ("requires_xfs", ["xfs_growfs", "mount"]),
    ("requires_f2fs", ["resize.f2fs"]),
    ("requires_part", ["numfmt", "sfdisk"]),
    ("requires_partition", ["numfmt", "sfdisk"]),
    ("requires_zpool", ["zfs"]),
    ("requires_liveimg", ["wget", "rsync", "cpio", "tar", "zstd", "lz4", "unzip", "sha256sum"]),
    ("requires_volgroup", ["lvm"]),
    ("requires_logvol", ["lvm"]),
    ("requires_btrfs", ["modprobe", "mount", "umount", "btrfs"]),
    ("requires_ks_reboot", ["eject", "reboot", "halt"])]

/-- `ks_order_$fn`, which the last row for the name sets -/
def ksOrder (fn : Bytes) : Option Nat := (ksOrders.reverse.find? fun r => text r.2 = fn).map (·.1)

/-- `KS_COMMANDS` -/
def ksCommands : Bytes := 44 :: ksOrders.flatMap fun r => text r.2 ++ [44]

/-- The test for an unknown command, `[ -n "${KS_COMMANDS##*,$1,*}" ]`, takes the word for a
pattern. -/
def isUnknown (w : Bytes) : Bool := hashHash (parse ([42, 44] ++ w ++ [44, 42])) ksCommands ≠ []

/-! ## Lines -/

/-- `IFS='' read l`: the line without its backslashes, and what follows its newline. A backslash
joins two lines. -/
def readCooked : Bytes → Bytes × Option Bytes
  | [] => ([], none)
  | 10 :: s => ([], some s)
  | [92] => ([], none)
  | 92 :: 10 :: s => readCooked s
  | 92 :: c :: s => ((c :: (readCooked s).1), (readCooked s).2)
  | c :: s => ((c :: (readCooked s).1), (readCooked s).2)

/-- `IFS='' read -r l` -/
def readRaw : Bytes → Bytes × Option Bytes
  | [] => ([], none)
  | 10 :: s => ([], some s)
  | c :: s => ((c :: (readRaw s).1), (readRaw s).2)

/-- `[[:space:]]` -/
def isSpace (c : UInt8) : Bool := c = 32 || 9 ≤ c && c ≤ 13

/-- `[[ "$l" =~ [[:space:]]*([^[:space:]].*) ]]` takes the blanks in front away, but keeps a line of
blanks. -/
def trim (l : Bytes) : Bytes := if l.all isSpace then l else l.dropWhile isSpace

/-- The next line, in the body or in a section -/
def readLine (body : Bool) (s : Bytes) : Bytes × Option Bytes :=
  if body then (trim (readCooked s).1, (readCooked s).2) else readRaw s

def kwInclude : Bytes := text "%include"

def kwKsappend : Bytes := text "%ksappend"

def kwEnd : Bytes := text "%end"

/-- The patterns `'#'*|''` -/
def isComment : Bytes → Bool
  | [] => true
  | c :: _ => c = 35

/-- The patterns `'%include'|'%include '*`, and the like -/
def isDirective (kw l : Bytes) : Bool := l = kw || (kw ++ [32]).isPrefixOf l

/-! ## The parser -/

/-- The file that a line goes to: the body, or a section with its name and number -/
abbrev Section := Option (Bytes × Nat)

abbrev Arrays := Bytes → Option (List Bytes)

/-- The arrays when the script starts -/
def arrays₀ : Arrays := fun kwd => (ksArrays.find? fun r => text r.1 = kwd).map fun r =>
    r.2.map text

structure State where
  arrays : Arrays
  /-- `ks:body`, each line with its number -/
  body : List (Nat × Bytes)
  /-- `ks:$section` -/
  sections : List ((Bytes × Nat) × Bytes)
  /-- The line numbers and words of the unknown commands -/
  messages : List (Nat × Bytes)

/-- Why the script ends before it executes anything -/
inductive Stop where
  | fuel
  | noFile (file : Bytes)
  | unbound
  | ksappend
  | unknownSection (lineno : Nat) (kwd : Bytes)
  | missing (cmd : Bytes)
deriving DecidableEq, Repr

structure Env where
  files : Bytes → Option Bytes
  installed : Bytes → Bool
  split : Bytes → List Bytes
  /-- The script works in an empty directory of its own. -/
  files_include : files kwInclude = none
  /-- All words of the line are kept, the first one too. -/
  split_include : ∀ l f, isDirective kwInclude l = true → (split l).head? = some f → f = kwInclude

/-- `ks_check_requires` -/
def ksCheckRequires (env : Env) (arrays : Arrays) (cmd : Bytes) : Bool :=
  match arrays (text "requires_" ++ cmd) with
  | none => true
  | some utils => utils.all env.installed

/-- `kwd`: the word without the percent sign, its dashes written as underscores -/
def sectionName (w : Bytes) : Bytes := (hash (parse [37]) w).map fun c => if c = 45 then 95 else c

/-- The head of a section: its name, its number and the arrays with what the line says about it -/
def openSection (arrays : Arrays) (l w : Bytes) : Option (Bytes × Nat × Arrays) :=
  let kwd := sectionName w
  (arrays kwd).map fun args =>
    (kwd, args.length, Function.update arrays kwd (some (args ++ [hash (parse (37 :: kwd)) l])))

/-- What the parser does with a line: it goes on with the next one, in a section or in the body, it
parses another file first, or it ends the script. -/
inductive Act where
  | next (sec : Section) (st : State)
  | «include»
  | stop (e : Stop)

/-- A line of the body that is no directive; the words are those of `set -- $l`. -/
def ksBodyLine (env : Env) (lineno : Nat) (l : Bytes) (st : State) : List Bytes → Act
  | [] => .stop .unbound
  | w :: _ =>
    if l.head? = some 37 then
      match openSection st.arrays l w with
      | none => .stop (.unknownSection lineno (sectionName w))
      | some (kwd, num, arrays) => .next (some (kwd, num)) { st with arrays }
    else if isUnknown w then .next none { st with messages := st.messages ++ [(lineno, w)] }
    else if ksCheckRequires env st.arrays w then
      match ksOrder w with
      | none => .stop .unbound
      | some cmdbase => .next none { st with body := st.body ++ [(lineno + cmdbase, l)] }
    else .stop (.missing w)

def ksLine (env : Env) (sec : Section) (lineno : Nat) (l : Bytes) (st : State) : Act :=
  if isComment l && sec.isNone then .next sec st
  else if isDirective kwInclude l then .include
  else if isDirective kwKsappend l then .stop .ksappend
  else if l = kwEnd then .next none st
  else
    match sec with
    | none => ksBodyLine env lineno l st (words l)
    | some name => .next sec { st with sections := st.sections ++ [(name, l)] }

/-- `ks_parse`, from a line on; the fuel bounds the lines that are read. -/
def ksParse (env : Env) : Nat → Section → Nat → Bytes → State → Except Stop State
  | 0, _, _, _, _ => .error .fuel
  | fuel + 1, sec, lineno, s, st =>
    let (l, rest) := readLine sec.isNone s
    -- The loop ends with the line that no newline ends.
    let goOn := fun sec st =>
      match rest with
      | none => .ok st
      | some s => ksParse env fuel sec (lineno + 1) s st
    match ksLine env sec (lineno + 1) l st with
    | .next sec st => goOn sec st
    | .stop e => .error e
    | .include =>
      match (env.split l).head? with
      | none => .error .unbound
      | some file =>
        match env.files file with
        | none => .error (.noFile file)
        | some s' =>
          match ksParse env fuel none 0 s' st with
          | .error e => .error e
          | .ok st => goOn sec st

/-! ## The order -/

/-- The steps that `ks_parse_stream` adds -/
def ksSteps : List Bytes :=
  ["ks_step_begin", "ks_step_pre", "ks_step_mount", "ks_step_pre_install", "ks_step_packages",
    "ks_step_post",
    "ks_step_sync"].map text

def stepLines : List (Nat × Bytes) := ksSteps.zipIdx.map fun (l, i) => (i + (ksOrder l).getD 0, l)

/-- `sort -g -k1,1`: by the number, and lines with the same number by their bytes -/
def lineLe (a b : Nat × Bytes) : Prop := a.1 < b.1 ∨ a.1 = b.1 ∧ a.2 ≤ b.2

instance : DecidableRel lineLe := fun _ _ => inferInstanceAs (Decidable (_ ∨ _))

def lines (s : Bytes) : Nat := s.count 10 + 1

/-- The lines of the file `ks`, which is then executed; the comment at its top is left out. -/
def kickstart (env : Env) (script : Bytes) : Except Stop (List Bytes) :=
  match ksParse env (lines script) none 0 script ⟨arrays₀, [], [], []⟩ with
  | .error e => .error e
  | .ok st => .ok (((st.body ++ stepLines).insertionSort lineLe).map (·.2))

end MakeInitrd.Kickstart
