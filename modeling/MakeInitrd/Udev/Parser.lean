import Mathlib.Data.List.Find
import MakeInitrd.Lib.CMem
import MakeInitrd.Lib.Words

/-!
# The scanner and the parser of `udev-rules`

The scanner of `udev-rules-scanner.l` cuts a rules file into matched texts. A text that is skipped
(blanks, a comment, a continuation) and a text that makes a token are both a `Piece` here, because
both move the location. The texts of a string are one piece. What is matched depends on the text
behind it in one place only, an opening brace that is never closed (`next_congr`).

The grammar of `udev-rules-parser.y` is the automaton that bison makes of it. A state that can only
reduce does so before it reads the next token: a pair is handed to `process_token` when its value
has been read. After a syntax error `rules_parse` calls the parser again. The token in question is
lost, the stack and the location start anew, but the current rule stays.
-/

namespace MakeInitrd.Udev

open CMem List Span
open Words (text)

/-! ## The scanner -/

section
/-- `rule_key_t` -/
inductive Key where
  | action
  | attr
  | attrs
  | const
  | devpath
  | driver
  | drivers
  | env
  | goto
  | group
  | import_
  | kernel
  | kernels
  | label
  | mode
  | name
  | options
  | owner
  | program
  | result
  | run
  | seclabel
  | subsystem
  | subsystems
  | symlink
  | sysctl
  | tag
  | tags
  | test
deriving DecidableEq

/-- `rule_op_t` -/
inductive Op where
  | match_
  | nomatch
  | add
  | remove
  | assign
  | assignFinal
deriving DecidableEq

/-- `rule_key_names`; a longer name stands before a shorter one, as the scanner takes the longest
match. -/
def ruleKeyNames : List (Bytes × Key) :=
  [(text "SUBSYSTEMS", .subsystems), (text "SUBSYSTEM", .subsystem), (text "SECLABEL", .seclabel),
    (text "DEVPATH", .devpath), (text "DRIVERS", .drivers), (text "KERNELS", .kernels),
    (text "OPTIONS", .options), (text "PROGRAM", .program), (text "SYMLINK", .symlink),
    (text "ACTION", .action), (text "DRIVER", .driver), (text "IMPORT", .import_),
    (text "KERNEL", .kernel), (text "RESULT", .result), (text "SYSCTL", .sysctl),
    (text "ATTRS", .attrs), (text "CONST", .const), (text "GROUP", .group), (text "LABEL", .label),
    (text "OWNER", .owner), (text "ATTR", .attr), (text "GOTO", .goto), (text "MODE", .mode),
    (text "NAME", .name), (text "TAGS", .tags), (text "TEST", .test), (text "ENV", .env),
    (text "RUN", .run), (text "TAG", .tag)]

inductive Token where
  | key (k : Key)
  | attr (s : Bytes)
  | operation (o : Op)
  | value (s : Bytes)
  | comma
  | eol
  | error
deriving DecidableEq

/-- The texts that one match in the state `INITIAL` takes, with those of the string it opens, and
the token that is returned for them, if any. -/
structure Piece where
  texts : List Bytes
  token : Option Token
deriving DecidableEq

def Piece.text (p : Piece) : Bytes := p.texts.flatten

/-- The length of an attribute with a NUL byte right behind the brace wraps around:
`string_append_str` then fills all memory behind the string with zeros, and the program dies. -/
def Piece.overruns (p : Piece) : Bool :=
  match p.token with
  | some (.attr _) => p.text[1]? = some 0
  | _ => false

/-- `[ \t]` -/
def isBlank (c : UInt8) : Bool := c = 32 ∨ c = 9

/-- `[:!=+-]=|=`: the operation that a byte and the byte behind it start, and its length. -/
def opAt : UInt8 → Option UInt8 → Option (Op × Nat)
  | 58, some 61 => some (.assignFinal, 2)
  | 33, some 61 => some (.nomatch, 2)
  | 61, some 61 => some (.match_, 2)
  | 43, some 61 => some (.add, 2)
  | 45, some 61 => some (.remove, 2)
  | 61, _ => some (.assign, 1)
  | _, _ => none

/-- The key at the start of the text, and its length. -/
def keyAt (s : Bytes) : Option (Key × Nat) :=
  (ruleKeyNames.find? fun e => e.1 <+: s).map fun e => (e.2, e.1.length)

/-- The state `STRING`: the value, the matched texts and the text behind the closing quote; `none`
if there is no closing quote. A newline that stands in the string is matched by no pattern but the
default one, which echoes it. -/
def scanString : Bytes → Option (Bytes × List Bytes × Bytes)
  | [] => none
  | 34 :: s => some ([], [[34]], s)
  | 10 :: s => (scanString s).map fun (v, ts, r) => (v, [10] :: ts, r)
  | 92 :: 10 :: s => (scanString s).map fun (v, ts, r) => (92 :: v, [92] :: [10] :: ts, r)
  | 92 :: c :: s => (scanString s).map fun (v, ts, r) => (c :: v, [92, c] :: ts, r)
  | c :: s => (scanString s).map fun (v, ts, r) => (c :: v, [c] :: ts, r)

/-- The value of an attribute: `strlen (yytext + 1) - 1` bytes of it. A NUL byte ends the string
early. -/
def attrString (body : Bytes) : Bytes :=
  if 0 ∈ body then (body.takeWhile (· ≠ 0)).dropLast else body

/-- The matches that remain when no pattern for a longer text applies. -/
def nextShort (c : UInt8) (s : Bytes) : Piece × Bytes :=
  match opAt c s.head?, keyAt (c :: s) with
  | some (o, n), _ => (⟨[(c :: s).take n], some (.operation o)⟩, (c :: s).drop n)
  | none, some (k, n) => (⟨[(c :: s).take n], some (.key k)⟩, (c :: s).drop n)
  | none, none => (⟨[[c]], some .error⟩, s)

/-- One match in the state `INITIAL`; `none` at the end of the input. -/
def next : Bytes → Option (Piece × Bytes)
  | [] => none
  | c :: s =>
    if isBlank c then
      some (⟨[c :: s.takeWhile isBlank], none⟩, s.dropWhile isBlank)
    else if c = 10 then some (⟨[[c]], some .eol⟩, s)
    else if c = 35 ∧ 10 ∈ s then
      some (⟨[c :: s.takeWhile (· ≠ 10) ++ [10]], none⟩, (s.dropWhile (· ≠ 10)).tail)
    else if c = 92 ∧ s.head? = some 10 then some (⟨[[c, 10]], none⟩, s.tail)
    else if c = 44 then
      some (⟨[c :: s.takeWhile (· = 44)], some .comma⟩, s.dropWhile (· = 44))
    else if c = 123 ∧ s.head? ≠ some 125 ∧ 125 ∈ s then
      let body := s.takeWhile (· ≠ 125)
      some (⟨[c :: body ++ [125]], some (.attr (attrString body))⟩, (s.dropWhile (· ≠ 125)).tail)
    else if c = 34 then
      (scanString s).map fun (v, ts, r) => (⟨[c] :: ts, some (.value v)⟩, r)
    else some (nextShort c s)

/-! ## What is matched does not depend on the text behind -/

variable {s r v : Bytes}

theorem scanString_text {ts : List Bytes} (h : scanString s = some (v, ts, r)) :
    s = ts.flatten ++ r := by
  fun_induction scanString s generalizing v ts with
  | case1 => cases h
  | case2 s => cases h; rfl
  | case3 s ih | case4 s ih | case5 s c _ ih | case6 s c _ _ _ _ ih =>
    obtain ⟨⟨v', ts', r'⟩, h', he⟩ := Option.map_eq_some_iff.1 h
    cases he
    simp [ih h']

/-- A string is read in the same way whatever stands behind it. -/
theorem scanString_congr {ts : List Bytes} (r' : Bytes)
    (h : scanString s = some (v, ts, r)) : scanString (ts.flatten ++ r') = some (v, ts, r') := by
  fun_induction scanString s generalizing v ts with
  | case1 => cases h
  | case2 s => cases h; rfl
  | case3 s ih =>
    obtain ⟨⟨v', ts', r''⟩, h', he⟩ := Option.map_eq_some_iff.1 h
    cases he
    simp [scanString, ih h']
  | case4 s ih =>
    obtain ⟨⟨v', ts', r''⟩, h', he⟩ := Option.map_eq_some_iff.1 h
    cases he
    simp [scanString, ih h']
  | case5 s c hc ih =>
    obtain ⟨⟨v', ts', r''⟩, h', he⟩ := Option.map_eq_some_iff.1 h
    cases he
    simp [scanString, ih h']
  | case6 c s h34 h10 _ h92 ih =>
    obtain ⟨⟨v', ts', r''⟩, h', he⟩ := Option.map_eq_some_iff.1 h
    cases he
    have hc : c ≠ 92 := by
      rintro rfl
      cases s with
      | nil => cases h'
      | cons d s => exact h92 d s rfl rfl
    rw [flatten_cons, singleton_append, cons_append, scanString, ih h']
    · rfl
    · exact h34
    · exact h10
    · exact fun _ e => absurd e hc
    · exact fun _ _ e => absurd e hc

variable {w w' : Bytes}

theorem prefix_congr {n a : Bytes} (hn : 10 ∉ n) (hv : 10 ∈ v) (h : n <+: a ++ (v ++ w)) :
    n <+: a ++ (v ++ w') := by
  rw [← append_assoc] at h ⊢
  have hp : n <+: a ++ v :=
    (List.prefix_or_prefix_of_prefix h (prefix_append _ _)).resolve_right fun hx =>
      hn (hx.subset (mem_append_right _ hv))
  exact hp.trans (prefix_append _ _)

theorem keyAt_congr {a : Bytes} (hv : 10 ∈ v) : keyAt (a ++ (v ++ w)) = keyAt (a ++ (v ++ w')) := by
  have hn : ∀ e ∈ ruleKeyNames, (10 : UInt8) ∉ e.1 := by decide
  have hfind : (ruleKeyNames.find? fun e => e.1 <+: a ++ (v ++ w)) =
      ruleKeyNames.find? fun e => e.1 <+: a ++ (v ++ w') :=
    find?_congr fun e he =>
      decide_eq_decide.2 ⟨prefix_congr (hn e he) hv, prefix_congr (hn e he) hv⟩
  rw [keyAt, keyAt, hfind]

theorem keyAt_length {k : Key} {n : Nat} (h : keyAt s = some (k, n)) : 0 < n ∧ n ≤ s.length := by
  obtain ⟨e, he, heq⟩ := Option.map_eq_some_iff.1 h
  have hpos : ∀ e ∈ ruleKeyNames, 0 < e.1.length := by decide
  have hp : e.1 <+: s := by simpa using find?_some he
  cases heq
  exact ⟨hpos e (mem_of_find?_eq_some he), hp.length_le⟩

theorem opAt_length {c : UInt8} {o : Op} {n : Nat} (h : opAt c s.head? = some (o, n)) :
    0 < n ∧ n ≤ (c :: s).length := by
  unfold opAt at h
  cases s <;> split at h <;> grind

variable {p : Piece}

/-- The scanner skips nothing. -/
theorem next_text (h : next s = some (p, r)) : s = p.text ++ r := by
  cases s with
  | nil => cases h
  | cons c s =>
    rw [next] at h
    split_ifs at h with _ _ h10 h92 _ h125
    · cases h; simp [Piece.text]
    · cases h; rfl
    · cases h
      have := takeWhile_append_dropWhile (p := (· ≠ 10)) (l := s)
      rw [dropWhile_of_mem h10.2] at this
      simpa [Piece.text] using this.symm
    · cases h
      obtain ⟨s, rfl⟩ : ∃ s', s = 10 :: s' := head?_eq_some_iff.1 h92.2
      rfl
    · cases h; simp [Piece.text]
    · cases h
      have := takeWhile_append_dropWhile (p := (· ≠ 125)) (l := s)
      rw [dropWhile_of_mem h125.2.2] at this
      simpa [Piece.text] using this.symm
    · obtain ⟨⟨v, ts, r'⟩, hs, he⟩ := Option.map_eq_some_iff.1 h
      cases he
      simpa [Piece.text] using scanString_text hs
    · rw [nextShort] at h
      split at h <;> cases h
      · simp [Piece.text]
      · simp [Piece.text]
      · rfl

theorem next_eol (r : Bytes) : next (10 :: r) = some (⟨[[10]], some .eol⟩, r) := rfl

theorem next_comment {b : Bytes} (hb : ∀ c ∈ b, decide (c ≠ 10) = true) (r : Bytes) :
    next (35 :: (b ++ 10 :: r)) = some (⟨[35 :: b ++ [10]], none⟩, r) := by
  rw [next, if_neg (by decide), if_neg (by decide), if_pos (by simp), takeWhile_stop hb (by simp),
    dropWhile_stop hb (by simp)]
  rfl

theorem next_attr {b : Bytes} (hb : ∀ c ∈ b, decide (c ≠ 125) = true) (hne : b ≠ []) (r : Bytes) :
    next (123 :: (b ++ 125 :: r)) =
      some (⟨[123 :: b ++ [125]], some (.attr (attrString b))⟩, r) := by
  have hhead : (b ++ 125 :: r).head? ≠ some 125 := by
    cases b with
    | nil => exact absurd rfl hne
    | cons c b => simpa using hb c (by simp)
  rw [next, if_neg (by decide), if_neg (by decide), if_neg (by simp), if_neg (by simp),
    if_neg (by decide), if_pos ⟨rfl, hhead, by simp⟩, takeWhile_stop hb (by simp),
    dropWhile_stop hb (by simp)]
  rfl

theorem nextShort_congr {c : UInt8} {x : UInt8} (w' : Bytes) (h : nextShort c s = (p, x :: v ++ w))
    (hv : 10 ∈ x :: v) :
    ∃ t, s = t ++ (x :: v ++ w) ∧ p.text = c :: t ∧ nextShort c (t ++ (x :: v ++ w')) =
      (p, x :: v ++ w') := by
  have hhead (t : Bytes) : (t ++ (x :: v ++ w)).head? = (t ++ (x :: v ++ w')).head? := by
    cases t <;> rfl
  have hkey (t : Bytes) : keyAt (c :: (t ++ (x :: v ++ w))) = keyAt (c :: (t ++ (x :: v ++ w'))) :=
    keyAt_congr (a := c :: t) hv
  have hcut {n : Nat} (hn : 0 < n ∧ n ≤ (c :: s).length) (hd : (c :: s).drop n = x :: v ++ w) :
      ∃ t, s = t ++ (x :: v ++ w) ∧ (c :: s).take n = c :: t ∧ n = t.length + 1 := by
    obtain ⟨m, rfl⟩ : ∃ m, n = m + 1 := ⟨n - 1, by omega⟩
    have hm : m ≤ s.length := by simpa using hn.2
    refine ⟨s.take m, ?_, rfl, by simp [hm]⟩
    rw [← hd]
    simp
  rw [nextShort] at h
  split at h
  · next o n ho =>
    obtain ⟨rfl, hr⟩ := Prod.mk.inj h
    obtain ⟨t, rfl, ht, rfl⟩ := hcut (opAt_length ho) hr
    refine ⟨t, rfl, by simp [Piece.text], ?_⟩
    rw [nextShort, ← hhead, ho]
    simp
  · next k n ho hk =>
    obtain ⟨rfl, hr⟩ := Prod.mk.inj h
    obtain ⟨t, rfl, ht, rfl⟩ := hcut (keyAt_length hk) hr
    refine ⟨t, rfl, by simp [Piece.text], ?_⟩
    rw [nextShort, ← hhead, ← hkey, ho, hk]
    simp
  · next ho hk =>
    cases h
    refine ⟨[], rfl, rfl, ?_⟩
    rw [nextShort, ← hhead, ← hkey]
    simp only [nil_append] at ho hk ⊢
    rw [ho, hk]

/-- A match that ends before the next newline is the same in front of another text behind that
newline, unless a brace is closed there that was not closed before. -/
theorem next_congr (h : next s = some (p, v ++ w)) (hv : 10 ∈ v)
    (hw : 125 ∈ w' → 125 ∈ w) : next (p.text ++ (v ++ w')) = some (p, v ++ w') := by
  obtain ⟨x, v, rfl⟩ : ∃ x v', v = x :: v' := exists_cons_of_ne_nil (ne_nil_of_mem hv)
  cases s with
  | nil => cases h
  | cons c s =>
    rw [next] at h
    split_ifs at h with hb heol h10 h92 hc h125 hq
    · obtain ⟨rfl, hr⟩ := Prod.mk.inj (Option.some.inj h)
      obtain ⟨ht, hd⟩ := takeWhile_run (v ++ w') hr
      simp only [Piece.text, flatten_cons, flatten_nil, append_nil, cons_append] at ht hd ⊢
      rw [next, if_pos hb, ht, hd]
    · cases h; rw [heol]; rfl
    · obtain ⟨rfl, -⟩ := Prod.mk.inj (Option.some.inj h)
      rw [h10.1]
      simpa [Piece.text] using next_comment (fun _ => mem_takeWhile_imp (l := s)) (x :: v ++ w')
    · obtain ⟨rfl, -⟩ := Prod.mk.inj (Option.some.inj h)
      rw [h92.1]; rfl
    · obtain ⟨rfl, hr⟩ := Prod.mk.inj (Option.some.inj h)
      obtain ⟨ht, hd⟩ := takeWhile_run (v ++ w') hr
      simp only [Piece.text, flatten_cons, flatten_nil, append_nil, cons_append] at ht hd ⊢
      rw [next, if_neg hb, if_neg heol, if_neg (by simp [hc]), if_neg (by simp [hc]),
        if_pos hc, ht, hd]
    · obtain ⟨rfl, -⟩ := Prod.mk.inj (Option.some.inj h)
      rw [h125.1]
      have hne : s.takeWhile (· ≠ 125) ≠ [] := by
        cases s with
        | nil => simp at h125
        | cons d s => simpa using h125.2.1
      simpa [Piece.text] using next_attr (fun _ => mem_takeWhile_imp (l := s)) hne (x :: v ++ w')
    · obtain ⟨⟨u, ts, r⟩, hs, he⟩ := Option.map_eq_some_iff.1 h
      cases he
      have := scanString_congr (x :: v ++ w') hs
      simp only [Piece.text, flatten_cons, cons_append, nil_append] at this ⊢
      rw [hq, next, if_neg (by decide), if_neg (by decide), if_neg (by simp), if_neg (by simp),
        if_neg (by decide), if_neg (by simp), if_pos rfl, this]
      rfl
    · obtain ⟨t, rfl, ht, hshort⟩ := nextShort_congr w' (Option.some.inj h) hv
      have hhead : (t ++ (x :: v ++ w)).head? = (t ++ (x :: v ++ w')).head? := by
        cases t <;> rfl
      -- the newline in `v` ends a comment, so the first byte is not `#`
      have hhash : ¬(c = 35 ∧ 10 ∈ t ++ (x :: v ++ w')) := fun h35 => h10 ⟨h35.1, by grind⟩
      have hbrace :
          ¬(c = 123 ∧ (t ++ (x :: v ++ w')).head? ≠ some 125 ∧ 125 ∈ t ++ (x :: v ++ w')) := by
        rintro ⟨h123, hne, hmem⟩
        exact h125 ⟨h123, hhead ▸ hne, by grind⟩
      rw [ht, cons_append, next, if_neg hb, if_neg heol, if_neg hhash, if_neg (hhead ▸ h92),
        if_neg hc, if_neg hbrace, if_neg hq, hshort]

end

/-! ## The parser -/

/-- `struct pos` -/
structure Pos where
  line : Nat
  column : Nat
deriving DecidableEq

/-- `YYLTYPE` -/
structure Loc where
  first : Pos
  last : Pos
deriving DecidableEq

/-- `yyloc_default` -/
def Loc.default : Loc := ⟨⟨1, 1⟩, ⟨1, 1⟩⟩

def Pos.advance (p : Pos) (c : UInt8) : Pos :=
  if c = 10 then ⟨p.line + 1, 1⟩ else ⟨p.line, p.column + 1⟩

/-- `update_loc`; the text is read up to a NUL byte. -/
def updateLoc (loc : Loc) (text : Bytes) : Loc :=
  ⟨loc.last, (text.takeWhile (· ≠ 0)).foldl Pos.advance loc.last⟩

/-- `struct rule_pair` -/
structure Pair where
  key : Key
  attr : Option Bytes
  op : Op
  value : Bytes
  posKey : Pos
  posOp : Pos
  posValue : Pos
deriving DecidableEq

/-- `is_op_match` -/
def Pair.isOpMatch (p : Pair) : Bool := p.op = .match_ ∨ p.op = .nomatch

/-- `struct rule` -/
structure Rule where
  file : Nat
  lineNr : Nat
  pairs : List Pair
deriving DecidableEq

/-- `struct rule_goto_label`: what is read of a pair through it. -/
structure GotoLabel where
  file : Nat
  order : Nat
  posKey : Pos
  value : Bytes
deriving DecidableEq

/-- `struct rules_state`. `cur_rule` is either null or the last of `rules`. -/
structure RulesState where
  files : Nat
  rules : List Rule
  gotos : List GotoLabel
  labels : List GotoLabel
  curRule : Bool
  /-- an attribute that is missing has been read: the program has died -/
  fault : Bool
deriving DecidableEq

def RulesState.init : RulesState := ⟨0, [], [], [], false, false⟩

/-! ## Pairs -/

/-- `rule_pair_prio`, as keys with `true` for `PAIR_OP_MATCH` -/
def rulePairPrio : List (Key × Bool) :=
  [(.label, false), (.action, true), (.devpath, true), (.kernel, true), (.symlink, true),
    (.name, true), (.env, true),
    (.const, true), (.tag, true), (.subsystem, true), (.driver, true), (.attr, true),
      (.sysctl, true),
    (.kernels, true), (.subsystems, true), (.drivers, true), (.attrs, true), (.tags, true),
    (.test, true), (.program, true), (.import_, true), (.result, true),
    (.options, false), (.owner, false), (.group, false), (.mode, false), (.tag, false),
    (.seclabel, false), (.env, false), (.name, false), (.symlink, false), (.attr, false),
    (.sysctl, false), (.run, false),
    (.goto, false)]

/-- `rule_pair_priority` -/
def rulePairPriority (p : Pair) : Nat :=
  (rulePairPrio.idxOf? (p.key, p.isOpMatch)).getD 0

/-- `list_sort` with `rule_pair_cmp`: a merge sort that takes the later one of two pairs with the
same priority first, because the comparison calls the earlier one greater. -/
def sortPairs (ps : List Pair) : List Pair :=
  ps.reverse.insertionSort fun a b => rulePairPriority a ≤ rulePairPriority b

/-- The operation that `process_token` leaves in a pair. -/
def processedOp (p : Pair) : Op :=
  match p.key, p.op with
  | .attr, .add | .attr, .assignFinal | .sysctl, .add | .sysctl, .assignFinal => .assign
  | .env, .assignFinal | .seclabel, .assignFinal | .tag, .assignFinal => .assign
  | .owner, .add | .group, .add | .mode, .add | .options, .add | .name, .add => .assign
  | .import_, o | .program, o => if p.isOpMatch then o else .match_
  | _, o => o

/-- The attribute that `process_token` leaves in a pair: `RUN` without one means `program`. -/
def processedAttr (p : Pair) : Option Bytes :=
  if p.key = .run then some (p.attr.getD (text "program")) else p.attr

/-- Whether `process_token` reads the attribute of a pair without asking if there is one. -/
def readsAttr (p : Pair) : Bool :=
  p.key = .const ∨ p.key = .import_ ∨ (p.key = .env ∧ ¬p.isOpMatch)

/-- A null pointer is read for the attribute of the pair. -/
def readsMissingAttr (p : Pair) : Bool := readsAttr p && p.attr.isNone

/-- What `process_token` changes: the pair itself, the lists of jumps and of labels. -/
def processToken (st : RulesState) (lineNr : Nat) (p : Pair) : Pair × RulesState :=
  let r : GotoLabel := ⟨st.files, lineNr, p.posKey, p.value⟩
  ({ p with op := processedOp p, attr := processedAttr p }, { st with
      gotos := if p.key = .goto then st.gotos ++ [r] else st.gotos
      labels := if p.key = .label then st.labels ++ [r] else st.labels
      fault := st.fault || readsMissingAttr p })

/-- The action of `pair`: `get_rule`, `get_pair` and `process_token`. -/
def addPair (st : RulesState) (p : Pair) : RulesState :=
  match st.curRule, st.rules.getLast? with
  | true, some r =>
    let (p', st') := processToken st r.lineNr p
    { st' with rules := st.rules.dropLast ++ [{ r with pairs := r.pairs ++ [p'] }] }
  | _, _ =>
    let (p', st') := processToken st p.posKey.line p
    { st' with rules := st.rules ++ [⟨st.files, p.posKey.line, [p']⟩], curRule := true }

/-- The action of `ruleline` -/
def endRule (st : RulesState) : RulesState :=
  match st.curRule, st.rules.getLast? with
  | true, some r =>
    { st with rules := st.rules.dropLast ++ [{ r with pairs := sortPairs r.pairs }],
              curRule := false }
  | _, _ => { st with curRule := false }

/-! ## The automaton -/

/-- What the parser has on its stack besides `input`. -/
inductive Mode where
  | start
  | key (k : Key) (pos : Pos)
  | attr (k : Key) (pos : Pos) (a : Bytes)
  | op (k : Key) (pos : Pos) (a : Option Bytes) (o : Op) (posOp : Pos)
  | pairs
  | comma
deriving DecidableEq

structure Parser where
  mode : Mode
  loc : Loc
  st : RulesState
deriving DecidableEq

/-- `yyparse` gives up and is called again. -/
def Parser.restart (σ : Parser) : Parser := { σ with mode := .start, loc := .default }

/-- The mode after a token at a position; `none` if the token is a syntax error. -/
def Mode.next (m : Mode) (pos : Pos) : Token → Option Mode
  | .key k =>
    match m with
    | .start | .comma => some (.key k pos)
    | _ => none
  | .attr a =>
    match m with
    | .key k posKey => some (.attr k posKey a)
    | _ => none
  | .operation o =>
    match m with
    | .key k posKey => some (.op k posKey none o pos)
    | .attr k posKey a => some (.op k posKey (some a) o pos)
    | _ => none
  | .value _ =>
    match m with
    | .op .. => some .pairs
    | _ => none
  | .comma =>
    match m with
    | .pairs => some .comma
    | _ => none
  | .eol =>
    match m with
    | .start | .pairs => some .start
    | _ => none
  | .error => none

/-- The pair that a token completes -/
def Mode.pair? (m : Mode) (pos : Pos) (t : Token) : Option Pair :=
  match m, t with
  | .op k posKey a o posOp, .value v => some ⟨k, a, o, v, posKey, posOp, pos⟩
  | _, _ => none

/-- The action of the rule that a token completes -/
def Parser.act (σ : Parser) (t : Token) : RulesState :=
  match σ.mode.pair? σ.loc.first t with
  | some p => addPair σ.st p
  | none => if σ.mode = .pairs ∧ t = .eol then endRule σ.st else σ.st

/-- One token, at the location of the parser -/
def Parser.shift (σ : Parser) (t : Token) : Parser :=
  match σ.mode.next σ.loc.first t with
  | none => σ.restart
  | some m => { σ with mode := m, st := σ.act t }

def Parser.step (σ : Parser) (p : Piece) : Parser :=
  let σ' := { σ with loc := p.texts.foldl updateLoc σ.loc }
  match p.token with
  | none => σ'
  | some t => σ'.shift t

def Parser.run (σ : Parser) (ps : List Piece) : Parser := ps.foldl Parser.step σ

/-- The pieces of a text, with as many matches as the fuel allows -/
def scanFuel : Nat → Bytes → List Piece
  | 0, _ => []
  | n + 1, s =>
    match next s with
    | none => []
    | some (p, r) => p :: scanFuel n r

def scan (s : Bytes) : List Piece := scanFuel s.length s

/-- The parser at the start of a file -/
def Parser.open_ (st : RulesState) : Parser :=
  ⟨.start, .default, { st with files := st.files + 1, curRule := false, fault := false }⟩

/-- The lists at the end of a file. The parser gives up there or has been done; either way they stay
as they are. -/
def parsed (st : RulesState) (s : Bytes) : RulesState := ((Parser.open_ st).run (scan s)).st

/-- `rules_readfile` for a file that can be read; `none` if the program dies -/
def rulesReadfile (st : RulesState) (s : Bytes) : Option RulesState :=
  if (parsed st s).fault || (scan s).any Piece.overruns then none else some (parsed st s)

/-! ## Jumps and labels -/

/-- `has no matching label` and `takes no effect` -/
inductive Diagnostic where
  | missingLabel (g : GotoLabel)
  | unusedLabel (l : GotoLabel)
deriving DecidableEq

/-- What `strcmp` and its kin read of a string: nothing behind a NUL byte. -/
def cstr (s : Bytes) : Bytes := s.takeWhile (· ≠ 0)

/-- Whether the first loop of `check_goto_label` finds a label for a jump. -/
def findsLabel (labels : List GotoLabel) (g : GotoLabel) : Bool :=
  labels.any fun l => cstr g.value = cstr l.value ∧ g.file = l.file ∧ l.order > g.order

/-- Whether the second loop finds a jump for a label: it looks at the first jump with this value
only. -/
def findsGoto (gotos : List GotoLabel) (l : GotoLabel) : Bool :=
  match gotos.find? fun g => g.file = l.file ∧ cstr g.value = cstr l.value with
  | some g => g.order < l.order
  | none => false

/-- `check_goto_label`, with the settings of the two warnings -/
def checkGotoLabel (missingLabel unusedLabels : Bool) (st : RulesState) : List Diagnostic :=
  (if missingLabel then
      (st.gotos.filter fun g => !findsLabel st.labels g).map .missingLabel else []) ++
    if unusedLabels then
      (st.labels.filter fun l => !findsGoto st.gotos l).map .unusedLabel else []

end MakeInitrd.Udev
