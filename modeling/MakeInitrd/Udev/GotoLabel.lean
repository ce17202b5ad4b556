import MakeInitrd.Udev.SyntaxError

/-!
# The diagnostics of jumps and labels

`check_goto_label` compares the line numbers of rules, and for a label it looks at the first jump
with the same value only. In files without a syntax error both are enough
(`checkGotoLabel_exact_iff`): each rule of a file has a greater line number than the rules before
it, and so the jumps of a file are registered in the order of their rules (`Registered`).
-/

namespace MakeInitrd.Udev

open CMem List
open Words (text)

/-! ## Files without a syntax error -/

/-- One call of `yyparse` reads the whole file. -/
def noSyntaxError (s : Bytes) : Bool := accepts .start (tokensOf (scan s))

@[simp] theorem tokensOf_append (ps qs : List Piece) :
    tokensOf (ps ++ qs) = tokensOf ps ++ tokensOf qs :=
  filterMap_append

theorem accepts_eol (m : Mode) (ts us : List Token) :
    accepts m (ts ++ .eol :: us) = (accepts m (ts ++ [.eol]) && accepts .start us) := by
  induction ts generalizing m with
  | nil => cases m <;> simp [accepts, Mode.next]
  | cons t ts ih =>
    rw [cons_append, cons_append, accepts, accepts]
    cases m.next ⟨1, 1⟩ t with
    | none => rfl
    | some m' => exact ih m'

variable {ls : List (List Piece)}

theorem accepts_lines (hls : ∀ l ∈ ls, IsLine l) {ps : List Piece}
    (h : accepts .start (tokensOf (ls.flatten ++ ps))) :
    (∀ l ∈ ls, valid l) ∧ accepts .start (tokensOf ps) := by
  induction ls with
  | nil => exact ⟨by simp, h⟩
  | cons l ls ih =>
    obtain ⟨b, rfl, -⟩ := hls l (by simp)
    rw [flatten_cons, append_assoc, tokensOf_append, tokensOf_line, append_assoc,
      singleton_append, accepts_eol, Bool.and_eq_true, ← tokensOf_line] at h
    obtain ⟨hrest, hps⟩ := ih (fun l' hl' => hls l' (mem_cons_of_mem _ hl')) h.2
    exact ⟨forall_mem_cons.2 ⟨h.1, hrest⟩, hps⟩

theorem noSyntaxError_lines {s : Bytes} (h : noSyntaxError s) :
    (∀ l ∈ logicalLines s, valid l) ∧ tokensOf (splitLines (scan s)).2 = [] := by
  rw [noSyntaxError, ← splitLines_flatten (scan s)] at h
  obtain ⟨hvalid, hlast⟩ := accepts_lines (fun l => isLine_of_mem) h
  exact ⟨hvalid, tokensOf_last hlast⟩

/-! ## The line numbers of rules -/

theorem updateLoc_first_le {ts : List Bytes} (hts : ts ≠ []) (loc : Loc) :
    (ts.foldl updateLoc loc).first.line ≤ (ts.foldl updateLoc loc).last.line := by
  rw [updateLoc_first hts, updateLoc_line]
  obtain ⟨us, u, rfl⟩ := (eq_nil_or_concat' ts).resolve_left hts
  rw [dropLast_concat, newlines_append]
  omega

theorem updateLoc_last_le (ts : List Bytes) (loc : Loc) :
    loc.last.line ≤ (ts.foldl updateLoc loc).last.line := by
  rw [updateLoc_line]
  omega

theorem endLoc_line_lt (b : List Piece) (loc : Loc) :
    loc.last.line < (endLoc loc (b ++ [eolPiece])).last.line := by
  rw [endLoc_line, flatMap_append, newlines_append]
  have : newlines ([eolPiece].flatMap Piece.texts) = 1 := by decide
  omega

theorem Mode.next_posKey_le {m m' : Mode} {loc : Loc} {t : Token}
    (hloc : loc.first.line ≤ loc.last.line)
    (hm : ∀ pos, m.posKey? = some pos → pos.line ≤ loc.last.line)
    (h : m.next loc.first t = some m') :
    ∀ pos, m'.posKey? = some pos → pos.line ≤ loc.last.line := by
  intro pos hpos
  cases m <;> cases t <;> first | (cases h; done) | (cases h; cases hpos; done) |
    (cases h; cases hpos; exact hloc) | (cases h; exact hm pos hpos)

/-- The keys of a line stand before its end. -/
theorem linePairs_line_lt {b : List Piece} (hb : ∀ p ∈ b, p.token ≠ some .eol ∧ p.texts ≠ [])
    {m : Mode} {loc : Loc} (hm : ∀ pos, m.posKey? = some pos → pos.line ≤ loc.last.line)
    (hacc : accepts m.blind (tokensOf (b ++ [eolPiece]))) :
    ∀ q ∈ linePairs m loc (b ++ [eolPiece]),
      q.posKey.line < (endLoc loc (b ++ [eolPiece])).last.line := by
  induction b generalizing m loc with
  | nil =>
    intro q hq
    cases m <;> simp [linePairs, eolPiece, Mode.pair?] at hq
  | cons p b ih =>
    have hb' : ∀ q ∈ b, q.token ≠ some .eol ∧ q.texts ≠ [] :=
      fun q hq => hb q (mem_cons_of_mem _ hq)
    have hgrow : ∀ pos, m.posKey? = some pos → pos.line ≤ (p.texts.foldl updateLoc loc).last.line :=
      fun pos hpos => (hm pos hpos).trans (updateLoc_last_le _ _)
    rw [cons_append] at hacc ⊢
    rw [endLoc_cons]
    cases ht : p.token with
    | none =>
      rw [tokensOf_none ht] at hacc
      rw [linePairs_none ht]
      exact ih hb' hgrow hacc
    | some t =>
      rw [tokensOf_some ht] at hacc
      obtain ⟨m', hnext, hacc'⟩ := next_of_accepts (p.texts.foldl updateLoc loc).first hacc
      rw [linePairs_some ht hnext]
      intro q hq
      rcases mem_append.1 hq with hq | hq
      · have hpos := hgrow _ (Mode.pair?_posKey (Option.mem_toList.1 hq))
        exact Nat.lt_of_le_of_lt hpos (endLoc_line_lt b _)
      · have hfirst := updateLoc_first_le (hb p (by simp)).2 loc
        exact ih hb' (Mode.next_posKey_le hfirst hgrow hnext) hacc' q hq

variable {ps : List Pair}

theorem mem_sortPairs {p : Pair} : p ∈ sortPairs ps ↔ p ∈ ps := by
  rw [sortPairs, mem_insertionSort, mem_reverse]

/-! ## What is registered -/

/-- What is registered for a pair of a rule -/
def Rule.gotoLabel (r : Rule) (p : Pair) : GotoLabel := ⟨r.file, r.lineNr, p.posKey, p.value⟩

/-- The jump or label stands in the rule. -/
def Rule.Has (r : Rule) (k : Key) (g : GotoLabel) : Prop :=
  ∃ p ∈ r.pairs, p.key = k ∧ g = r.gotoLabel p

variable {g : GotoLabel}

theorem mem_jumps {k : Key} {file : Nat} :
    g ∈ jumps k file (ruleOf file ps).lineNr ps ↔ (ruleOf file ps).Has k g := by
  simp only [jumps, Rule.Has, ruleOf, mem_sortPairs, mem_map, mem_filter, decide_eq_true_eq]
  constructor
  · rintro ⟨p, ⟨hp, hk⟩, rfl⟩
    exact ⟨processed p, ⟨p, hp, rfl⟩, hk, rfl⟩
  · rintro ⟨_, ⟨p, hp, rfl⟩, hk, rfl⟩
    exact ⟨p, ⟨hp, hk⟩, rfl⟩

/-- Jumps and labels are those of the rules. In each file the rules, and so the jumps, are ordered
by their line numbers. The rules of the last file stand before the line that comes next. -/
structure Registered (st : RulesState) (line : Nat) : Prop where
  gotos : ∀ g, g ∈ st.gotos ↔ ∃ r ∈ st.rules, r.Has .goto g
  labels : ∀ l, l ∈ st.labels ↔ ∃ r ∈ st.rules, r.Has .label l
  sorted : st.gotos.Pairwise fun g g' => g.file = g'.file → g.order ≤ g'.order
  increasing : st.rules.Pairwise fun r r' => r.file = r'.file → r.lineNr < r'.lineNr
  bounded : ∀ r ∈ st.rules, r.file ≤ st.files ∧ (r.file = st.files → r.lineNr < line)

variable {st : RulesState} {n : Nat}

theorem Registered.mono {n' : Nat} (h : Registered st n) (hn : n ≤ n') : Registered st n' where
  gotos := h.gotos
  labels := h.labels
  sorted := h.sorted
  increasing := h.increasing
  bounded r hr := ⟨(h.bounded r hr).1, fun hf => Nat.lt_of_lt_of_le ((h.bounded r hr).2 hf) hn⟩

theorem registered_init (n : Nat) : Registered .init n where
  gotos := by simp [RulesState.init]
  labels := by simp [RulesState.init]
  sorted := .nil
  increasing := .nil
  bounded := nofun

theorem Registered.open_ (h : Registered st n) (n' : Nat) : Registered (Parser.open_ st).st n' where
  gotos := h.gotos
  labels := h.labels
  sorted := h.sorted
  increasing := h.increasing
  bounded r hr := by
    have hle := (h.bounded r hr).1
    refine ⟨Nat.le_succ_of_le hle, fun hf => ?_⟩
    replace hf : r.file = st.files + 1 := hf
    omega

variable {r : Rule}

theorem exists_concat_iff {rs : List Rule} {k : Key} :
    (∃ r' ∈ rs ++ [r], r'.Has k g) ↔ (∃ r' ∈ rs, r'.Has k g) ∨ r.Has k g := by
  simp only [mem_append, mem_singleton, or_and_right, exists_or, exists_eq_left]

/-- A rule is added with its jumps and labels. It stands at the line that comes next, or behind it.
-/
theorem Registered.rule {st' : RulesState} {n' : Nat} (h : Registered st n)
    (hfirst : n ≤ (ruleOf st.files ps).lineNr) (hlast : (ruleOf st.files ps).lineNr < n')
    (hfiles : st'.files = st.files) (hrules : st'.rules = st.rules ++ [ruleOf st.files ps])
    (hgotos : st'.gotos = st.gotos ++ jumps .goto st.files (ruleOf st.files ps).lineNr ps)
    (hlabels : st'.labels = st.labels ++ jumps .label st.files (ruleOf st.files ps).lineNr ps) :
    Registered st' n' where
  gotos g := by rw [hgotos, hrules, mem_append, exists_concat_iff, mem_jumps, h.gotos]
  labels l := by rw [hlabels, hrules, mem_append, exists_concat_iff, mem_jumps, h.labels]
  sorted := by
    rw [hgotos]
    refine pairwise_append.2 ⟨h.sorted, ?_, ?_⟩
    · refine pairwise_of_forall_mem_list fun g hg g' hg' _ => ?_
      obtain ⟨p, -, -, rfl⟩ := mem_jumps.1 hg
      obtain ⟨p', -, -, rfl⟩ := mem_jumps.1 hg'
      exact le_rfl
    · intro g hg g' hg' hfile
      obtain ⟨r, hr, p, -, -, rfl⟩ := (h.gotos g).1 hg
      obtain ⟨p', -, -, rfl⟩ := mem_jumps.1 hg'
      exact ((h.bounded r hr).2 hfile).le.trans hfirst
  increasing := by
    rw [hrules]
    refine pairwise_append.2 ⟨h.increasing, pairwise_singleton _ _, ?_⟩
    intro r hr r' hr' hfile
    obtain rfl := mem_singleton.1 hr'
    exact Nat.lt_of_lt_of_le ((h.bounded r hr).2 hfile) hfirst
  bounded r hr := by
    rw [hrules, mem_append, mem_singleton] at hr
    rw [hfiles]
    rcases hr with hr | rfl
    · refine ⟨(h.bounded r hr).1, fun hf => ?_⟩
      have := (h.bounded r hr).2 hf
      omega
    · exact ⟨le_rfl, fun _ => hlast⟩

/-- A line without an error keeps what is registered in order. -/
theorem Registered.line {σ : Parser} (h : Registered σ.st σ.loc.last.line) (hat : AtStart σ)
    (hcur : σ.st.curRule = false) {l : List Piece} (hl : IsLine l) (hv : valid l) :
    Registered (σ.run l).st (σ.run l).loc.last.line ∧ (σ.run l).st.curRule = false := by
  cases hr : isRule l with
  | true =>
    obtain ⟨hrules, hcur', hgotos, hlabels⟩ := run_rule_fresh hl hr hat hcur
    refine ⟨h.rule ?_ ?_ (run_files σ l) hrules hgotos hlabels, hcur'⟩
    all_goals
      obtain ⟨n, hn⟩ := linePairs_start hl hr
      obtain ⟨q, qs, heq, hline⟩ := hn σ.loc
      have hnr : (ruleOf σ.st.files (linePairs .start σ.loc l)).lineNr = q.posKey.line := by
        rw [heq]; rfl
      rw [hnr]
    · omega
    · rw [run_rule hl hr hat.mode]
      obtain ⟨b, rfl, hb⟩ := hl
      have hmode : ∀ pos, Mode.start.posKey? = some pos → pos.line ≤ σ.loc.last.line :=
        fun _ => nofun
      exact linePairs_line_lt hb hmode hv q (by rw [heq]; simp)
  | false =>
    have htok := tokensOf_eq_of_valid hv hr
    obtain ⟨b, rfl, -⟩ := hl
    rw [run_blank htok hat.mode]
    exact ⟨h.mono (endLoc_line_lt b _).le, hcur⟩

theorem Registered.lines (hls : ∀ l ∈ ls, IsLine l) (hv : ∀ l ∈ ls, valid l)
    {σ : Parser} (h : Registered σ.st σ.loc.last.line) (hat : AtStart σ)
    (hcur : σ.st.curRule = false) :
    ∃ n, Registered (σ.run ls.flatten).st n := by
  induction ls generalizing σ with
  | nil => exact ⟨_, h⟩
  | cons l ls ih =>
    obtain ⟨h', hcur'⟩ := h.line hat hcur (hls l (by simp)) (hv l (by simp))
    rw [flatten_cons, run_append]
    exact ih (fun l' hl' => hls l' (mem_cons_of_mem _ hl'))
      (fun l' hl' => hv l' (mem_cons_of_mem _ hl'))
      h' (hat.run (hls l (by simp))) hcur'

theorem Registered.readfile (h : Registered st n) {s : Bytes} (hs : noSyntaxError s) :
    ∃ n', Registered (parsed st s) n' := by
  have hls : ∀ l ∈ logicalLines s, IsLine l := fun l => isLine_of_mem
  obtain ⟨hv, hlast⟩ := noSyntaxError_lines hs
  obtain ⟨n', hreg⟩ := (h.open_ 1).lines hls hv (atStart_open st) rfl
  refine ⟨n', ?_⟩
  have hquiet : ∀ p ∈ (splitLines (scan s)).2, p.token = none ∨ p = eolPiece := fun p hp =>
    .inl (filterMap_eq_nil_iff.1 hlast p hp)
  rw [parsed, ← splitLines_flatten (scan s), run_append, ← logicalLines,
    run_quiet hquiet ((atStart_open st).run_lines hls).1.mode]
  exact hreg

theorem exists_dies_iff {s : Bytes} (hs : noSyntaxError s) :
    (∃ l ∈ allLines s, Dies l) ↔ ∃ l ∈ logicalLines s, Dies l := by
  have hlast := filterMap_eq_nil_iff.1 (noSyntaxError_lines hs).2
  have hpairs (ps : List Piece) (h : ∀ p ∈ ps, p.token = none) (loc : Loc) :
      linePairs .start loc ps = [] := by
    induction ps generalizing loc with
    | nil => rfl
    | cons p ps ih =>
      rw [linePairs_none (h p (by simp))]
      exact ih (fun q hq => h q (mem_cons_of_mem _ hq)) _
  have hno : Dies (splitLines (scan s)).2 = false := by
    rw [Dies, hpairs _ hlast, any_nil, Bool.or_false, any_eq_false]
    intro p hp
    simp [Piece.overruns, hlast p hp]
  simp [allLines, or_and_right, exists_or, hno]

/-- Files without a syntax error are read to their ends if and only if the program dies on none of
their lines. -/
theorem registered_files {files : List Bytes} (hfiles : ∀ s ∈ files, noSyntaxError s)
    (h : Registered st n) :
    if ∃ s ∈ files, ∃ l ∈ logicalLines s, Dies l then files.foldlM rulesReadfile st = none
    else ∃ st' n', files.foldlM rulesReadfile st = some st' ∧ Registered st' n' := by
  induction files generalizing st n with
  | nil => simpa using ⟨n, h⟩
  | cons s files ih =>
    obtain ⟨hs, hfiles⟩ := forall_mem_cons.1 hfiles
    obtain ⟨n', h'⟩ := h.readfile hs
    rw [foldlM_cons, rulesReadfile_eq, if_congr (exists_dies_iff hs) rfl rfl]
    by_cases hdies : ∃ l ∈ logicalLines s, Dies l
    · simp [hdies]
    · simpa [hdies] using ih hfiles h'

/-! ## The diagnostics -/

/-- A later rule of the file of the `i`th rule has a label with the value. Values are compared by
`strcmp`. -/
def LabelAfter (rules : List Rule) (i : Nat) (r : Rule) (v : Bytes) : Prop :=
  ∃ j r', i < j ∧ rules[j]? = some r' ∧ r'.file = r.file ∧ ∃ q ∈ r'.pairs, q.key = .label ∧
    cstr q.value = cstr v

/-- An earlier rule of the file of the `i`th rule has a jump with the value. -/
def GotoBefore (rules : List Rule) (i : Nat) (r : Rule) (v : Bytes) : Prop :=
  ∃ j r', j < i ∧ rules[j]? = some r' ∧ r'.file = r.file ∧ ∃ q ∈ r'.pairs, q.key = .goto ∧
    cstr q.value = cstr v

theorem Registered.lineNr_lt_iff {i j : Nat} {r' : Rule} (h : Registered st n)
    (hi : st.rules[i]? = some r) (hj : st.rules[j]? = some r') (hfile : r.file = r'.file) :
    r.lineNr < r'.lineNr ↔ i < j := by
  have hmono : ∀ {i j : Nat} {r r' : Rule}, st.rules[i]? = some r → st.rules[j]? = some r' →
      r.file = r'.file → i < j → r.lineNr < r'.lineNr := by
    intro i j r r' hi hj hfile hij
    obtain ⟨hi', rfl⟩ := List.getElem?_eq_some_iff.1 hi
    obtain ⟨hj', rfl⟩ := List.getElem?_eq_some_iff.1 hj
    exact pairwise_iff_getElem.1 h.increasing i j hi' hj' hij hfile
  refine ⟨fun hlt => ?_, hmono hi hj hfile⟩
  rcases Nat.lt_trichotomy i j with hij | rfl | hij
  · exact hij
  · cases hi.symm.trans hj
    exact absurd hlt (lt_irrefl _)
  · have := hmono hj hi hfile.symm hij
    omega

theorem Registered.findsLabel_iff {i : Nat} (h : Registered st n)
    (hi : st.rules[i]? = some r) (p : Pair) :
    findsLabel st.labels (r.gotoLabel p) ↔ LabelAfter st.rules i r p.value := by
  simp only [findsLabel, any_eq_true, decide_eq_true_eq, LabelAfter]
  constructor
  · rintro ⟨l, hl, hvalue, hfile, horder⟩
    obtain ⟨r', hr', q, hq, hk, rfl⟩ := (h.labels l).1 hl
    obtain ⟨j, hj⟩ := mem_iff_getElem?.1 hr'
    exact ⟨j, r', (h.lineNr_lt_iff hi hj hfile).1 horder, hj, hfile.symm, q, hq, hk, hvalue.symm⟩
  · rintro ⟨j, r', hij, hj, hfile, q, hq, hk, hvalue⟩
    have hmem : r'.gotoLabel q ∈ st.labels :=
      (h.labels _).2 ⟨r', mem_of_getElem? hj, q, hq, hk, rfl⟩
    exact ⟨_, hmem, hvalue.symm, hfile.symm, (h.lineNr_lt_iff hi hj hfile.symm).2 hij⟩

/-- The first jump with a value is the one with the least line number, so it is enough to look at.
-/
theorem findsGoto_iff {gotos : List GotoLabel}
    (hsorted : gotos.Pairwise fun g g' => g.file = g'.file → g.order ≤ g'.order) (l : GotoLabel) :
    findsGoto gotos l ↔ ∃ g ∈ gotos, g.file = l.file ∧ cstr g.value = cstr l.value ∧
      g.order < l.order := by
  induction gotos with
  | nil => simp [findsGoto]
  | cons g gotos ih =>
    obtain ⟨hfirst, hrest⟩ := pairwise_cons.1 hsorted
    have ih := ih hrest
    simp only [findsGoto, find?_cons] at ih ⊢
    by_cases hg : g.file = l.file ∧ cstr g.value = cstr l.value
    · simp only [hg, and_self, decide_true, decide_eq_true_eq, mem_cons, exists_eq_or_imp, true_and]
      refine ⟨.inl, fun hex => ?_⟩
      rcases hex with hlt | ⟨g', hg', hfile, -, hlt⟩
      · exact hlt
      · exact Nat.lt_of_le_of_lt (hfirst g' hg' (hg.1.trans hfile.symm)) hlt
    · have : ¬(g.file = l.file ∧ cstr g.value = cstr l.value ∧ g.order < l.order) :=
        fun h => hg ⟨h.1, h.2.1⟩
      simp only [hg, decide_false, mem_cons, exists_eq_or_imp, this, false_or]
      exact ih

theorem Registered.findsGoto_iff {i : Nat} (h : Registered st n)
    (hi : st.rules[i]? = some r) (p : Pair) :
    findsGoto st.gotos (r.gotoLabel p) ↔ GotoBefore st.rules i r p.value := by
  rw [Udev.findsGoto_iff h.sorted, GotoBefore]
  constructor
  · rintro ⟨g, hg, hfile, hvalue, horder⟩
    obtain ⟨r', hr', q, hq, hk, rfl⟩ := (h.gotos g).1 hg
    obtain ⟨j, hj⟩ := mem_iff_getElem?.1 hr'
    exact ⟨j, r', (h.lineNr_lt_iff hj hi hfile).1 horder, hj, hfile, q, hq, hk, hvalue⟩
  · rintro ⟨j, r', hij, hj, hfile, q, hq, hk, hvalue⟩
    have hmem : r'.gotoLabel q ∈ st.gotos := (h.gotos _).2 ⟨r', mem_of_getElem? hj, q, hq, hk, rfl⟩
    exact ⟨_, hmem, hfile, hvalue, (h.lineNr_lt_iff hj hi hfile).2 hij⟩

theorem mem_checkGotoLabel_missing :
    .missingLabel g ∈ checkGotoLabel true true st ↔ g ∈ st.gotos ∧ ¬findsLabel st.labels g := by
  simp [checkGotoLabel]

theorem mem_checkGotoLabel_unused {l : GotoLabel} :
    .unusedLabel l ∈ checkGotoLabel true true st ↔ l ∈ st.labels ∧ ¬findsGoto st.gotos l := by
  simp [checkGotoLabel]

/-- `check_goto_label` warns about a jump exactly if no later rule of the file has its label, and
about a label exactly if no earlier rule of the file has a jump to it. It warns about nothing else.
-/
structure Exact (st : RulesState) : Prop where
  missing : ∀ i r, st.rules[i]? = some r → ∀ p ∈ r.pairs, p.key = .goto →
    (.missingLabel (r.gotoLabel p) ∈ checkGotoLabel true true st ↔ ¬LabelAfter st.rules i r p.value)
  unused : ∀ i r, st.rules[i]? = some r → ∀ p ∈ r.pairs, p.key = .label →
    (.unusedLabel (r.gotoLabel p) ∈ checkGotoLabel true true st ↔ ¬GotoBefore st.rules i r p.value)
  nothingElse : ∀ d ∈ checkGotoLabel true true st, ∃ r ∈ st.rules, ∃ p ∈ r.pairs,
    p.key = .goto ∧ d = .missingLabel (r.gotoLabel p) ∨ p.key = .label ∧ d =
      .unusedLabel (r.gotoLabel p)

theorem Registered.exact (h : Registered st n) : Exact st where
  missing i r hi p hp hk := by
    have hmem : r.gotoLabel p ∈ st.gotos := (h.gotos _).2 ⟨r, mem_of_getElem? hi, p, hp, hk, rfl⟩
    rw [mem_checkGotoLabel_missing, h.findsLabel_iff hi, and_iff_right hmem]
  unused i r hi p hp hk := by
    have hmem : r.gotoLabel p ∈ st.labels := (h.labels _).2 ⟨r, mem_of_getElem? hi, p, hp, hk, rfl⟩
    rw [mem_checkGotoLabel_unused, h.findsGoto_iff hi, and_iff_right hmem]
  nothingElse d hd := by
    cases d with
    | missingLabel g =>
      obtain ⟨r, hr, p, hp, hk, rfl⟩ := (h.gotos g).1 (mem_checkGotoLabel_missing.1 hd).1
      exact ⟨r, hr, p, hp, .inl ⟨hk, rfl⟩⟩
    | unusedLabel l =>
      obtain ⟨r, hr, p, hp, hk, rfl⟩ := (h.labels l).1 (mem_checkGotoLabel_unused.1 hd).1
      exact ⟨r, hr, p, hp, .inr ⟨hk, rfl⟩⟩

/-- For rules files without a syntax error the diagnostics are exact if and only if the program
reaches them: it dies on a pair with the key `CONST` or `IMPORT`, or an assignment to `ENV`, that
has no attribute, and on an attribute that begins with a NUL byte. -/
theorem checkGotoLabel_exact_iff (files : List Bytes) (hfiles : ∀ s ∈ files, noSyntaxError s) :
    (∃ st, files.foldlM rulesReadfile .init = some st ∧ Exact st) ↔
      ∀ s ∈ files, ∀ l ∈ logicalLines s, Dies l = false := by
  have h := registered_files hfiles (registered_init 1)
  split_ifs at h with hdies
  · obtain ⟨s, hs, l, hl, hd⟩ := hdies
    rw [h]
    exact iff_of_false (nomatch ·.choose_spec.1) fun hall => by simp [hall s hs l hl] at hd
  · obtain ⟨st, n, hst, hreg⟩ := h
    refine iff_of_true ⟨st, hst, hreg.exact⟩ fun s hs l hl => ?_
    exact Bool.eq_false_iff.2 fun hd => hdies ⟨s, hs, l, hl, hd⟩

/-- `GOTO="a"` and `LABEL="b"` on two lines, and `LABEL="a"` in another file -/
def twoFiles : List Bytes := [text "GOTO=\"a\"\nLABEL=\"b\"\n", text "LABEL=\"a\"\n"]

/-- The label of the other file is of no use to the jump. -/
theorem checkGotoLabel_exact_twoFiles : (∀ s ∈ twoFiles, noSyntaxError s) ∧
      ∃ st, twoFiles.foldlM rulesReadfile .init = some st ∧ Exact st ∧
        (checkGotoLabel true true st).length = 3 := by
  have hfiles : ∀ s ∈ twoFiles, noSyntaxError s := by decide +kernel
  obtain ⟨st, hst, hexact⟩ := (checkGotoLabel_exact_iff twoFiles hfiles).2 (by decide +kernel)
  refine ⟨hfiles, st, hst, hexact, ?_⟩
  have hlen :
      (twoFiles.foldlM rulesReadfile .init).map (fun st => (checkGotoLabel true true st).length) =
        some 3 := by
    decide +kernel
  simpa [hst] using hlen

/-- The program dies on `IMPORT="x"` and never warns about the jump. -/
theorem not_checkGotoLabel_exact : noSyntaxError (text "IMPORT=\"x\"\nGOTO=\"a\"\n") ∧
    ¬∃ st, [text "IMPORT=\"x\"\nGOTO=\"a\"\n"].foldlM rulesReadfile .init = some st ∧ Exact st := by
  have hnone : [text "IMPORT=\"x\"\nGOTO=\"a\"\n"].foldlM rulesReadfile .init = none := by
    decide +kernel
  refine ⟨by decide +kernel, ?_⟩
  rw [hnone]
  rintro ⟨st, h, -⟩
  cases h

end MakeInitrd.Udev
