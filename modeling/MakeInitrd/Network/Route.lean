import Mathlib.Data.List.DropRight
import MakeInitrd.Lib.Glob
import MakeInitrd.Lib.Words

/-!
# Routes of an interface

`set_route` of `lib/network/route` reads a file of routes, with `cat_config` from the first line on
or with `tac_config` from the last, and runs one `ip route` for each line that is not skipped, with
`dev $NET_IF` behind it unless `in_list` finds a word that rules this out. But `in_list` takes the
word it looks for as the first of the words to look through, so it always finds it.
`setRoute_bound_iff` says for which files the commands are bound to the interface as intended.
-/

namespace MakeInitrd.Network

open CMem Glob Words List

inductive Action where
  | add
  | del
deriving DecidableEq, Repr

/-- `read -r s` -/
def readLine (l : Bytes) : Bytes := (l.dropWhile isBlank).rdropWhile isBlank

/-- `[ -n "$s" ] && [ -n "${s##\#*}" ]` -/
def isConfig (s : Bytes) : Bool := s ≠ [] ∧ hashHash (parse (text "\\#*")) s ≠ []

/-- The lines that `cat_config` and `tac_config` do not skip; there are none if there is no file. -/
def configLines (file : Option Bytes) : List Bytes :=
  (((file.getD []).splitOn 10).map readLine).filter isConfig

def catConfig {α : Type} (handler : List Bytes → α) (file : Option Bytes) : List α :=
  (configLines file).map fun s => handler (words s)

def tacConfig {α : Type} (handler : List Bytes → α) (file : Option Bytes) : List α :=
  (configLines file).reverse.map fun s => handler (words s)

/-- `in_list` compares its first argument with all its arguments. -/
def inList : List Bytes → Bool
  | [] => false
  | n :: args => (n :: args).any (n = ·)

/-- The `case` on the first word of a line -/
def rewrite (action : Action) (first : Bytes) : Bytes :=
  if first ∈ ["add", "change", "append", "replace"].map text then
    if action = .del then text "del" else first
  else if first = text "del" then
    if action = .del then text "add" else first
  else
    match action with
    | .add => text "append " ++ first
    | .del => text "del " ++ first

/-- The arguments of `ip_cmd` for the words of a line; a line that is not skipped has a first one.
-/
def handler (action : Action) (netIf : Bytes) (args : List Bytes) : List Bytes :=
  let suffix :=
    if inList (text "throw" :: args) || inList (text "unreachable" :: args) ||
      inList (text "prohibit" :: args) ||
      inList (text "blackhole" :: args) || inList (text "dev" :: args) then []
    else text "dev " ++ netIf
  match args with
  | [] => []
  | first :: rest => text "route" :: words (rewrite action first) ++ rest ++ words suffix

/-- The arguments of `ip` -/
def ipCmd (ipVersion : Bytes) (args : List Bytes) : List Bytes := (45 :: ipVersion) :: args

/-- The commands that `set_route` runs -/
def setRoute (ipVersion : Bytes) (action : Action) (netIf : Bytes) (file : Option Bytes) :
    List (List Bytes) :=
  match action with
  | .add => catConfig (fun args => ipCmd ipVersion (handler .add netIf args)) file
  | .del => tacConfig (fun args => ipCmd ipVersion (handler .del netIf args)) file

/-! ## What the commands should be -/

/-- The line is neither blank nor a comment. -/
def isRoute (l : Bytes) : Bool :=
  match words l with
  | [] => false
  | w :: _ => w.head? ≠ some 35

def routes (file : Option Bytes) : List Bytes := ((file.getD []).splitOn 10).filter isRoute

def Action.order (action : Action) (ls : List Bytes) : List Bytes :=
  match action with
  | .add => ls
  | .del => ls.reverse

/-- The words of a line that is not to be bound to the interface -/
def unboundWords : List Bytes := ["dev", "throw", "unreachable", "prohibit", "blackhole"].map text

/-- There is one `ip route` for each route, in order, and it ends in `dev` and the interface if the
line has none of the words, and only then. -/
def RoutesBound (ipVersion : Bytes) (action : Action) (netIf : Bytes) (file : Option Bytes) :
    Prop :=
  ∃ command : Bytes → List Bytes, setRoute ipVersion action netIf file =
    (action.order (routes file)).map command ∧
    ∀ l ∈ routes file, (∃ args, command l = (45 :: ipVersion) :: text "route" :: args) ∧
      ([text "dev", netIf] <:+ command l ↔ ∀ w ∈ unboundWords, w ∉ words l)

variable {ipVersion netIf l first : Bytes} {action : Action} {file : Option Bytes}
    {rest : List Bytes}

theorem words_dropWhile (l : Bytes) : words (l.dropWhile isBlank) = words l := by
  induction l with
  | nil => rfl
  | cons c l ih =>
    cases hc : isBlank c with
    | true =>
      rw [dropWhile_cons_of_pos hc, ih]
      exact (words_append_cons [] hc l).symm
    | false => rw [dropWhile_cons_of_neg (by simp [hc])]

theorem words_readLine (l : Bytes) : words (readLine l) = words l := by
  rw [readLine, ← words_dropWhile l]
  induction l.dropWhile isBlank using List.reverseRecOn with
  | nil => rfl
  | append_singleton l c ih =>
    cases hc : isBlank c with
    | true => rw [rdropWhile_concat_pos _ _ _ hc, ih,
      words_append_cons l hc]; exact (append_nil _).symm
    | false => rw [rdropWhile_concat_neg _ _ _ (by simp [hc])]

theorem isConfig_readLine (l : Bytes) : isConfig (readLine l) = isRoute l := by
  have hwords := words_readLine l
  have hpattern : parse (text "\\#*") = [.lit 35, .star] := by decide +kernel
  cases hs : readLine l with
  | nil =>
    rw [hs] at hwords
    rw [isRoute, ← hwords]
    rfl
  | cons c s =>
    have hc : isBlank c = false := by
      obtain ⟨t, ht⟩ := rdropWhile_prefix isBlank (l.dropWhile isBlank)
      rw [← readLine, hs, cons_append] at ht
      exact Span.false_of_dropWhile ht.symm
    obtain ⟨w, ws, hw⟩ := exists_words_cons hc s
    rw [hs, hw] at hwords
    rw [isRoute, ← hwords, isConfig, hpattern]
    simp [hashHash_eq_nil _ (cons_ne_nil c s), isMatch_lit_star]

theorem setRoute_eq : setRoute ipVersion action netIf file =
      (action.order (routes file)).map fun l =>
        ipCmd ipVersion (handler action netIf (words l)) := by
  have hlines : configLines file = (routes file).map readLine := by
    rw [configLines, routes, filter_map]
    congr 1
    exact filter_congr fun l _ => isConfig_readLine l
  cases action with
  | add => simp [setRoute, catConfig, Action.order, hlines, words_readLine, Function.comp_def]
  | del => simp [setRoute, tacConfig, Action.order, hlines, words_readLine, Function.comp_def]

/-! ## Commands -/

theorem handler_cons (action : Action) (netIf first : Bytes) (rest : List Bytes) :
    handler action netIf (first :: rest) = text "route" ::
      words (rewrite action first) ++ rest := by
  have hlist (n : Bytes) (args : List Bytes) : inList (n :: args) = true := by simp [inList]
  have hwords : words [] = [] := rfl
  simp [handler, hlist, hwords]

/-- The last word of an action is `dev` only if the first word of the line is, and the one before it
never is. -/
theorem exists_rewrite (action : Action) (hblank : ∀ c ∈ first, isBlank c = false)
    (hne : first ≠ []) :
    ∃ pre u x, text "route" :: words (rewrite action first) = pre ++ [u, x] ∧ u ≠ text "dev" ∧
      (x = text "dev" ↔ first = text "dev") := by
  have hself := words_eq_singleton hblank hne
  have hword (w : Bytes) (hw : w ∈ ["append", "del"].map text) :
      words (w ++ 32 :: first) = [w, first] := by
    obtain rfl | rfl : w = text "append" ∨ w = text "del" := by simpa using hw
    all_goals exact (words_append_cons _ rfl _).trans (by rw [hself]; rfl)
  unfold rewrite
  split_ifs with hkeep _ hdel
  · refine ⟨[], text "route", text "del", rfl,
      by decide +kernel, iff_of_false (by decide +kernel) ?_⟩
    rintro rfl
    exact absurd hkeep (by decide +kernel)
  · exact ⟨[], text "route", first, by rw [hself]; rfl, by decide +kernel, Iff.rfl⟩
  · refine ⟨[], text "route", text "add", rfl,
      by decide +kernel, iff_of_false (by decide +kernel) ?_⟩
    rw [hdel]
    decide +kernel
  · exact ⟨[], text "route", first, by rw [hself]; rfl, by decide +kernel, Iff.rfl⟩
  · cases action with
    | add => exact ⟨[text "route"], text "append", first,
      by rw [← hword _ (by simp)]; rfl, by decide +kernel, Iff.rfl⟩
    | del => exact ⟨[text "route"], text "del", first,
      by rw [← hword _ (by simp)]; rfl, by decide +kernel, Iff.rfl⟩

theorem pair_suffix {α : Type} {a b y z : α} {l : List α} :
    [a, b] <:+ l ++ [y, z] ↔ a = y ∧ b = z := by
  constructor
  · rintro ⟨t, h⟩
    simpa using (append_inj' h rfl).2
  · rintro ⟨rfl, rfl⟩
    exact suffix_append l _

theorem suffix_command (hblank : ∀ c ∈ first, isBlank c = false) (hne : first ≠ []) :
    [text "dev", netIf] <:+ ipCmd ipVersion (handler action netIf (first :: rest)) ↔
      [text "dev", netIf] <:+ first :: rest := by
  obtain ⟨pre, u, x, hpre, hu, hx⟩ := exists_rewrite action hblank hne
  rw [ipCmd, handler_cons, hpre]
  rcases rest.eq_nil_or_concat' with rfl | ⟨r, z, rfl⟩
  · have hshort : ¬[text "dev", netIf] <:+ [first] := fun h => by simpa using h.length_le
    have := pair_suffix (a := text "dev") (b := netIf) (y := u) (z := x)
      (l := (45 :: ipVersion) :: pre)
    simp only [append_nil, ← cons_append, this, hu.symm, false_and, hshort]
  rcases r.eq_nil_or_concat' with rfl | ⟨r, y, rfl⟩
  · have := pair_suffix (a := text "dev") (b := netIf) (y := x) (z := z)
      (l := (45 :: ipVersion) :: (pre ++ [u]))
    have hline := pair_suffix (a := text "dev") (b := netIf) (y := first) (z := z) (l := [])
    simp only [nil_append, cons_append, append_assoc] at this hline ⊢
    rw [this, hline, eq_comm, hx, eq_comm]
  · have := pair_suffix (a := text "dev") (b := netIf) (y := y) (z := z)
      (l := (45 :: ipVersion) :: (pre ++ [u, x] ++ r))
    have hline := pair_suffix (a := text "dev") (b := netIf) (y := y) (z := z) (l := first :: r)
    simp only [nil_append, cons_append, append_assoc] at this hline ⊢
    rw [this, hline]

/-- The routes are bound as intended exactly where every line rules it out that the interface is put
behind it, and none has it there already. -/
theorem setRoute_bound_iff (ipVersion : Bytes) (action : Action) (netIf : Bytes)
    (file : Option Bytes) :
    RoutesBound ipVersion action netIf file ↔
      ∀ l ∈ routes file, (∃ w ∈ unboundWords, w ∈ words l) ∧ ¬[text "dev", netIf] <:+ words l := by
  have hroute : ∀ l ∈ routes file, (∃ args, ipCmd ipVersion (handler action netIf (words l)) =
        (45 :: ipVersion) :: text "route" :: args) ∧
      ([text "dev", netIf] <:+ ipCmd ipVersion (handler action netIf (words l)) ↔
        [text "dev", netIf] <:+ words l) := by
    intro l hl
    cases hw : words l with
    | nil => simp [routes, isRoute, hw] at hl
    | cons first rest =>
      have hmem : first ∈ words l := by simp [hw]
      refine ⟨⟨_, congrArg _ (handler_cons action netIf first rest)⟩,
        suffix_command (not_isBlank_of_mem_words hmem) ?_⟩
      simpa using of_mem_filter hmem
  -- the interface is never put behind a line, so a line that asks for it is not bound
  have hbound (l : Bytes) : ([text "dev", netIf] <:+ words l ↔ ∀ w ∈ unboundWords, w ∉ words l) ↔
      (∃ w ∈ unboundWords, w ∈ words l) ∧ ¬[text "dev", netIf] <:+ words l := by
    have hdev : text "dev" ∈ unboundWords := by simp [unboundWords]
    by_cases hend : [text "dev", netIf] <:+ words l
    · have hmem : text "dev" ∈ words l := hend.subset (by simp)
      simpa [hend] using ⟨_, hdev, hmem⟩
    · simp [hend]
  constructor
  · rintro ⟨command, heq, h⟩ l hl
    have hl' : l ∈ action.order (routes file) := by cases action <;> simpa [Action.order] using hl
    have hcommand := map_inj_left.1 (setRoute_eq.symm.trans heq) l hl'
    rw [← hbound, ← (hroute l hl).2, hcommand]
    exact (h l hl).2
  · intro h
    refine ⟨_, setRoute_eq, fun l hl => ⟨(hroute l hl).1, ?_⟩⟩
    rw [(hroute l hl).2, hbound]
    exact h l hl

/-- A default route is added without its interface. -/
theorem not_setRoute_bound : ¬∀ file, RoutesBound (text "4") .add (text "eth0") file := by
  intro h
  have := (setRoute_bound_iff _ _ _ _).1 (h (some (text "default via 10.0.0.1\n")))
    (text "default via 10.0.0.1")
    (by decide +kernel)
  exact absurd this.1 (by decide +kernel)

end MakeInitrd.Network
