import MakeInitrd.Udev.Lines

/-!
# Syntax errors and the other lines

After a syntax error the parser goes on with the rest of the line. It keeps the rule it was reading,
and it counts lines from 1 again. So a line without an error gets the rule it gets in the file
without the bad lines if and only if no rule is open at its start and the line counter is right
there (`Recovered`). Only an error on the first line of the file can leave the counter right
(`recovered_iff`).
-/

namespace MakeInitrd.Udev

open CMem List
open Words (text)

/-! ## The pairs of a line -/

def endLoc (loc : Loc) (ps : List Piece) : Loc := (ps.flatMap Piece.texts).foldl updateLoc loc

/-- The pairs that a line without a syntax error completes, from a mode and a location on -/
def linePairs : Mode → Loc → List Piece → List Pair
  | _, _, [] => []
  | m, loc, p :: ps =>
    let loc' := p.texts.foldl updateLoc loc
    match p.token with
    | none => linePairs m loc' ps
    | some t =>
      (m.pair? loc'.first t).toList ++ linePairs ((m.next loc'.first t).getD .start) loc' ps

/-- What `process_token` makes of a pair -/
def processed (p : Pair) : Pair := { p with op := processedOp p, attr := processedAttr p }

@[simp] theorem endLoc_cons (loc : Loc) (p : Piece) (ps : List Piece) :
    endLoc loc (p :: ps) = endLoc (p.texts.foldl updateLoc loc) ps := by
  simp [endLoc]

@[simp] theorem run_cons (σ : Parser) (p : Piece) (ps : List Piece) :
    σ.run (p :: ps) = (σ.step p).run ps := rfl

@[simp] theorem run_append (σ : Parser) (ps qs : List Piece) :
    σ.run (ps ++ qs) = (σ.run ps).run qs := foldl_append

variable {p : Piece} {σ τ : Parser}

theorem step_none (h : p.token = none) :
    σ.step p = { σ with loc := p.texts.foldl updateLoc σ.loc } := by
  simp [Parser.step, h]

variable {t : Token}

theorem step_some (h : p.token = some t) :
    σ.step p = Parser.shift { σ with loc := p.texts.foldl updateLoc σ.loc } t := by
  simp [Parser.step, h]

/-- A mode without its positions; they have no part in what is a syntax error. -/
def Mode.blind : Mode → Mode
  | .start => .start
  | .key k _ => .key k ⟨1, 1⟩
  | .attr k _ a => .attr k ⟨1, 1⟩ a
  | .op k _ a o _ => .op k ⟨1, 1⟩ a o ⟨1, 1⟩
  | .pairs => .pairs
  | .comma => .comma

theorem next_blind (m : Mode) (pos : Pos) (t : Token) :
    (m.next pos t).map Mode.blind = m.blind.next ⟨1, 1⟩ t := by
  cases m <;> cases t <;> rfl

variable {m : Mode}

theorem next_of_accepts (pos : Pos) {ts : List Token}
    (h : accepts m.blind (t :: ts)) : ∃ m', m.next pos t = some m' ∧ accepts m'.blind ts := by
  rw [accepts, ← next_blind m pos] at h
  cases hm : m.next pos t with
  | none => simp [hm] at h
  | some m' => exact ⟨m', rfl, by simpa [hm] using h⟩

variable {m' : Mode} {pos : Pos}

theorem next_ne_start (ht : t ≠ .eol) (h : m.next pos t = some m') : m' ≠ .start := by
  rintro rfl
  cases m <;> cases t <;> simp [Mode.next] at h ht

theorem Mode.next_congr (h : m.blind = m'.blind) (pos pos' : Pos) (t : Token) :
    ((m.next pos t).getD .start).blind = ((m'.next pos' t).getD .start).blind := by
  have : (m.next pos t).map Mode.blind = (m'.next pos' t).map Mode.blind := by
    rw [next_blind, next_blind, h]
  cases hm : m.next pos t <;> cases hm' : m'.next pos' t <;> simp_all

theorem tokensOf_none (h : p.token = none) (ps : List Piece) :
    tokensOf (p :: ps) = tokensOf ps := by simp [tokensOf, h]

theorem tokensOf_some (h : p.token = some t) (ps : List Piece) :
    tokensOf (p :: ps) = t :: tokensOf ps := by simp [tokensOf, h]

variable {loc : Loc} {ps : List Piece}

theorem linePairs_none (h : p.token = none) :
    linePairs m loc (p :: ps) = linePairs m (p.texts.foldl updateLoc loc) ps := by
  simp [linePairs, h]

theorem linePairs_some (h : p.token = some t)
    (hm : m.next (p.texts.foldl updateLoc loc).first t = some m') :
    linePairs m loc (p :: ps) = (m.pair? (p.texts.foldl updateLoc loc).first t).toList ++
      linePairs m' (p.texts.foldl updateLoc loc) ps := by
  simp [linePairs, h, hm]

variable {b : List Piece}

/-- Once a line has begun, each pair is added when it is complete, and the end of the line ends the
rule. -/
theorem run_begun (hb : ∀ p ∈ b, p.token ≠ some .eol ∧ p.texts ≠ [])
    (hstart : σ.mode ≠ .start) (hacc : accepts σ.mode.blind (tokensOf (b ++ [eolPiece]))) :
    σ.run (b ++ [eolPiece]) = ⟨.start, endLoc σ.loc (b ++ [eolPiece]),
      endRule ((linePairs σ.mode σ.loc (b ++ [eolPiece])).foldl addPair σ.st)⟩ := by
  induction b generalizing σ with
  | nil =>
    obtain ⟨m, loc, st⟩ := σ
    -- `EOL` is no syntax error before the start of a line only behind a pair
    obtain rfl : m = .pairs := by
      cases m <;> first | rfl | exact absurd rfl hstart | cases hacc
    rfl
  | cons p b ih =>
    have ih := fun σ => @ih σ fun q hq => hb q (mem_cons_of_mem _ hq)
    rw [cons_append] at hacc ⊢
    rw [run_cons, endLoc_cons]
    cases ht : p.token with
    | none =>
      rw [tokensOf_none ht] at hacc
      rw [step_none ht, linePairs_none ht]
      exact ih _ hstart hacc
    | some t =>
      have hne : t ≠ .eol := fun h => (hb p (by simp)).1 (h ▸ ht)
      rw [tokensOf_some ht] at hacc
      obtain ⟨m', hm, hacc'⟩ := next_of_accepts (p.texts.foldl updateLoc σ.loc).first hacc
      rw [step_some ht, linePairs_some ht hm, Parser.shift]
      simp only [hm]
      refine (ih _ (next_ne_start hne hm) hacc').trans ?_
      simp only [Parser.act, hne, and_false, if_false]
      cases σ.mode.pair? (p.texts.foldl updateLoc σ.loc).first t <;> rfl

theorem tokensOf_line (b : List Piece) :
    tokensOf (b ++ [eolPiece]) = tokensOf b ++ [.eol] := by simp [tokensOf, eolPiece]

/-- A line without tokens only moves the location. -/
theorem run_blank (hb : tokensOf (b ++ [eolPiece]) = [.eol]) (hstart : σ.mode = .start) :
    σ.run (b ++ [eolPiece]) = { σ with loc := endLoc σ.loc (b ++ [eolPiece]) } := by
  induction b generalizing σ with
  | nil =>
    obtain ⟨m, loc, st⟩ := σ
    cases hstart
    rfl
  | cons p b ih =>
    rw [tokensOf_line] at hb
    have hnil : tokensOf (p :: b) = [] := by simpa using hb
    cases ht : p.token with
    | none =>
      rw [tokensOf_none ht] at hnil
      rw [cons_append, run_cons, endLoc_cons, step_none ht]
      exact ih (by rw [tokensOf_line, hnil]; rfl) hstart
    | some t => simp [tokensOf_some ht] at hnil

variable {l : List Piece}

/-- A line with a rule adds its pairs and ends the rule. -/
theorem run_rule (hl : IsLine l) (hr : isRule l) (hstart : σ.mode = .start) :
    σ.run l = ⟨.start, endLoc σ.loc l,
      endRule ((linePairs .start σ.loc l).foldl addPair σ.st)⟩ := by
  obtain ⟨hvalid, hne⟩ := of_decide_eq_true hr
  obtain ⟨b, rfl, hb⟩ := hl
  replace hvalid : accepts Mode.start.blind (tokensOf (b ++ [eolPiece])) := hvalid
  induction b generalizing σ with
  | nil => exact absurd rfl hne
  | cons p b ih =>
    have hb' : ∀ q ∈ b, q.token ≠ some .eol ∧ q.texts ≠ [] :=
      fun q hq => hb q (mem_cons_of_mem _ hq)
    rw [cons_append] at hvalid hne ⊢
    rw [run_cons, endLoc_cons]
    cases ht : p.token with
    | none =>
      rw [tokensOf_none ht] at hvalid hne
      rw [step_none ht, linePairs_none ht]
      exact ih hstart hb' (decide_eq_true ⟨hvalid, hne⟩) hne hvalid
    | some t =>
      rw [tokensOf_some ht] at hvalid
      obtain ⟨m', hm, hacc⟩ := next_of_accepts (p.texts.foldl updateLoc σ.loc).first hvalid
      have hneol : t ≠ .eol := fun h => (hb p (by simp)).1 (h ▸ ht)
      rw [step_some ht, linePairs_some ht hm, Parser.shift]
      simp only [hstart, hm]
      refine (run_begun hb' (next_ne_start hneol hm) hacc).trans ?_
      simp [Parser.act, hneol, Mode.pair?]

/-! ## Rules -/

/-- What `process_token` registers for the pairs with a key -/
def jumps (k : Key) (file order : Nat) (ps : List Pair) : List GotoLabel :=
  (ps.filter (·.key = k)).map fun p => ⟨file, order, p.posKey, p.value⟩

theorem jumps_cons (k : Key) (file order : Nat) (p : Pair) (ps : List Pair) :
    jumps k file order (p :: ps) =
      (if p.key = k then [⟨file, order, p.posKey, p.value⟩] else []) ++ jumps k file order ps := by
  by_cases h : p.key = k <;> simp [jumps, h]

/-- The state after pairs have been added to a rule -/
def withPairs (st : RulesState) (rs : List Rule) (r : Rule) (ps : List Pair) : RulesState :=
  { st with
    rules := rs ++ [{ r with pairs := r.pairs ++ ps.map processed }]
    curRule := true
    gotos := st.gotos ++ jumps .goto st.files r.lineNr ps
    labels := st.labels ++ jumps .label st.files r.lineNr ps
    fault := st.fault || ps.any readsMissingAttr }

@[simp] theorem jumps_nil (k : Key) (file order : Nat) : jumps k file order [] = [] := rfl

theorem withPairs_cons (st : RulesState) (rs : List Rule) (r : Rule) (p : Pair) (ps : List Pair) :
    withPairs (withPairs st rs r [p]) rs { r with pairs := r.pairs ++ [processed p] } ps =
      withPairs st rs r (p :: ps) := by
  simp [withPairs, jumps_cons, Bool.or_assoc]

variable {st : RulesState}

/-- Pairs are added to the rule that is open. -/
theorem addPairs_open {rs : List Rule} {r : Rule} (hcur : st.curRule)
    (hrules : st.rules = rs ++ [r]) (ps : List Pair) :
    ps.foldl addPair st = withPairs st rs r ps := by
  induction ps generalizing st r with
  | nil =>
    obtain ⟨files, rules, gotos, labels, cur, fault⟩ := st
    cases hcur
    cases hrules
    simp [withPairs]
  | cons p ps ih =>
    have hadd : addPair st p = withPairs st rs r [p] := by
      simp only [addPair, hcur, hrules, getLast?_concat, processToken, withPairs, jumps_cons,
        dropLast_concat]
      simp only [processed, map_cons, map_nil, jumps_nil, append_nil, any_cons, any_nil,
        Bool.or_false]
      grind
    rw [foldl_cons, hadd, ← withPairs_cons st rs r p ps]
    refine ih ?_ ?_ <;> rfl

/-- If no rule is open the first pair opens one. -/
theorem addPairs_fresh (hcur : st.curRule = false) (p : Pair) (ps : List Pair) :
    (p :: ps).foldl addPair st =
      withPairs st st.rules ⟨st.files, p.posKey.line, []⟩ (p :: ps) := by
  have hadd : addPair st p = withPairs st st.rules ⟨st.files, p.posKey.line, []⟩ [p] := by
    simp only [addPair, hcur, processToken, withPairs, jumps_cons]
    simp only [processed, map_cons, map_nil, jumps_nil, append_nil, any_cons, any_nil,
      Bool.or_false]
    grind
  rw [foldl_cons, hadd, ← withPairs_cons _ _ _ p ps]
  refine addPairs_open ?_ ?_ ps <;> rfl

theorem endRule_withPairs (st : RulesState) (rs : List Rule) (r : Rule) (ps : List Pair) :
    endRule (withPairs st rs r ps) = { withPairs st rs r ps with
        rules := rs ++ [{ r with pairs := sortPairs (r.pairs ++ ps.map processed) }]
        curRule := false } := by
  simp [endRule, withPairs]

/-! ## Where the program dies -/

/-- The program dies on these pieces. -/
def Dies (ps : List Piece) : Bool :=
  ps.any Piece.overruns || (linePairs .start .default ps).any readsMissingAttr

theorem addPair_fault (st : RulesState) (p : Pair) :
    (addPair st p).fault = (st.fault || readsMissingAttr p) := by
  unfold addPair
  split <;> rfl

theorem endRule_fault (st : RulesState) : (endRule st).fault = st.fault := by
  unfold endRule
  split <;> rfl

theorem act_fault (σ : Parser) (t : Token) : (σ.act t).fault =
    (σ.st.fault || (σ.mode.pair? σ.loc.first t).toList.any readsMissingAttr) := by
  unfold Parser.act
  cases σ.mode.pair? σ.loc.first t with
  | some p => simp [addPair_fault]
  | none => split_ifs <;> simp [endRule_fault]

theorem Mode.pair?_missing (h : m.blind = m'.blind) (pos pos' : Pos) (t : Token) :
    (m.pair? pos t).toList.any readsMissingAttr =
      (m'.pair? pos' t).toList.any readsMissingAttr := by
  cases m <;> cases m' <;> first | (cases h; done) | (cases h; cases t <;> rfl)

theorem Mode.pair?_eq_none (h : m.next pos t = none) (pos' : Pos) : m.pair? pos' t = none := by
  cases m <;> cases t <;> first | rfl | cases h

/-- Where a file is read from, and so the positions, have no part in whether an attribute is
missing. -/
theorem run_fault (ps : List Piece) (h : σ.mode.blind = m.blind) (loc : Loc) :
    (σ.run ps).st.fault = (σ.st.fault || (linePairs m loc ps).any readsMissingAttr) := by
  induction ps generalizing σ m loc with
  | nil => simp [linePairs, Parser.run]
  | cons p ps ih =>
    rw [run_cons]
    cases ht : p.token with
    | none =>
      rw [step_none ht, linePairs_none ht]
      exact @ih ⟨σ.mode, p.texts.foldl updateLoc σ.loc, σ.st⟩ m h _
    | some t =>
      rw [step_some ht, Parser.shift]
      simp only [linePairs, ht, any_append]
      have hnext := Mode.next_congr h (p.texts.foldl updateLoc σ.loc).first
        (p.texts.foldl updateLoc loc).first t
      rw [← Mode.pair?_missing h (p.texts.foldl updateLoc σ.loc).first]
      split
      · next hm =>
        rw [hm] at hnext
        rw [Mode.pair?_eq_none hm]
        exact ih hnext _
      · next hm =>
        rw [hm] at hnext
        rw [ih hnext, act_fault, Bool.or_assoc]

/-! ## Positions -/

/-- The newlines that `update_loc` sees in the texts -/
def newlines (ts : List Bytes) : Nat := (ts.map fun t => (t.takeWhile (· ≠ 0)).count 10).sum

theorem advance_line (t : Bytes) (pos : Pos) :
    (t.foldl Pos.advance pos).line = pos.line + t.count 10 := by
  induction t generalizing pos with
  | nil => rfl
  | cons c t ih =>
    rw [foldl_cons, ih, count_cons, Pos.advance]
    by_cases h : c = 10
    · simp only [h, if_true, beq_self_eq_true]
      omega
    · simp [h]

theorem updateLoc_line (ts : List Bytes) (loc : Loc) :
    (ts.foldl updateLoc loc).last.line = loc.last.line + newlines ts := by
  induction ts generalizing loc with
  | nil => rfl
  | cons t ts ih =>
    rw [foldl_cons, ih, updateLoc, advance_line, newlines, newlines, map_cons, sum_cons,
      Nat.add_assoc]

theorem updateLoc_congr {ts : List Bytes} (hts : ts ≠ []) {loc' : Loc} (h : loc.last = loc'.last) :
    ts.foldl updateLoc loc = ts.foldl updateLoc loc' := by
  cases ts with
  | nil => exact absurd rfl hts
  | cons t ts => rw [foldl_cons, foldl_cons, updateLoc, updateLoc, h]

theorem updateLoc_first {ts : List Bytes} (hts : ts ≠ []) (loc : Loc) :
    (ts.foldl updateLoc loc).first.line = loc.last.line + newlines ts.dropLast := by
  obtain ⟨ts, t, rfl⟩ := (eq_nil_or_concat' ts).resolve_left hts
  rw [foldl_concat, dropLast_concat]
  exact updateLoc_line ts loc

theorem endLoc_line (loc : Loc) (ps : List Piece) :
    (endLoc loc ps).last.line = loc.last.line + newlines (ps.flatMap Piece.texts) :=
  updateLoc_line _ loc

theorem IsLine.texts (hl : IsLine l) : ∀ p ∈ l, p.texts ≠ [] := by
  obtain ⟨b, rfl, hb⟩ := hl
  simp only [mem_append, mem_singleton]
  rintro p (hp | rfl)
  · exact (hb p hp).2
  · simp [eolPiece]

theorem linePairs_congr (hl : IsLine l) (m : Mode) {loc' : Loc}
    (h : loc.last = loc'.last) : linePairs m loc l = linePairs m loc' l := by
  cases l with
  | nil => rfl
  | cons p l =>
    have hp : p.texts.foldl updateLoc loc = p.texts.foldl updateLoc loc' :=
      updateLoc_congr (hl.texts p (by simp)) h
    rw [linePairs, linePairs, hp]

/-- The position of the key of the pair that is being read -/
def Mode.posKey? : Mode → Option Pos
  | .key _ pos | .attr _ pos _ | .op _ pos _ _ _ => some pos
  | _ => none

theorem Mode.pair?_posKey {q : Pair} (h : m.pair? pos t = some q) : m.posKey? = some q.posKey := by
  unfold Mode.pair? at h
  split at h <;> cases h
  rfl

theorem Mode.next_posKey {posKey : Pos} (hm : m.posKey? = some posKey)
    (hpair : m.pair? pos t = none) (hnext : m.next pos t = some m') : m'.posKey? = some posKey := by
  cases m <;> cases t <;>
    first | (cases hnext; done) | (cases hm; done) | (cases hpair; done) | (cases hnext; exact hm)

/-- The pair that is being read is the next one. -/
theorem linePairs_head (hm : m.posKey? = some pos)
    (hacc : accepts m.blind (tokensOf (b ++ [eolPiece]))) (loc : Loc) :
    ∃ q qs, linePairs m loc (b ++ [eolPiece]) = q :: qs ∧ q.posKey = pos := by
  induction b generalizing m loc with
  | nil => cases m <;> first | cases hm; done | cases hacc
  | cons p b ih =>
    rw [cons_append] at hacc ⊢
    cases ht : p.token with
    | none =>
      rw [tokensOf_none ht] at hacc
      rw [linePairs_none ht]
      exact ih hm hacc _
    | some t =>
      rw [tokensOf_some ht] at hacc
      obtain ⟨m', hnext, hacc'⟩ := next_of_accepts (p.texts.foldl updateLoc loc).first hacc
      rw [linePairs_some ht hnext]
      cases hpair : m.pair? (p.texts.foldl updateLoc loc).first t with
      | some q =>
        exact ⟨q, _, rfl, Option.some.inj ((Mode.pair?_posKey hpair).symm.trans hm)⟩
      | none => exact ih (Mode.next_posKey hm hpair hnext) hacc' _

/-- A line with a rule has a pair, and the line number of its key does not depend on where the line
starts but for the lines before. -/
theorem linePairs_start (hl : IsLine l) (hr : isRule l) :
    ∃ n, ∀ loc, ∃ q qs, linePairs .start loc l = q :: qs ∧ q.posKey.line = loc.last.line + n := by
  obtain ⟨hvalid, hne⟩ := of_decide_eq_true hr
  have htexts := hl.texts
  obtain ⟨b, rfl, hb⟩ := hl
  replace hvalid : accepts Mode.start.blind (tokensOf (b ++ [eolPiece])) := hvalid
  clear hr
  induction b with
  | nil => exact absurd rfl hne
  | cons p b ih =>
    rw [cons_append] at hvalid hne htexts
    cases ht : p.token with
    | none =>
      rw [tokensOf_none ht] at hvalid hne
      obtain ⟨n, hn⟩ := ih (fun q hq => hb q (mem_cons_of_mem _ hq)) hne
        (fun q hq => htexts q (mem_cons_of_mem _ hq)) hvalid
      refine ⟨newlines p.texts + n, fun loc => ?_⟩
      obtain ⟨q, qs, heq, hline⟩ := hn (p.texts.foldl updateLoc loc)
      refine ⟨q, qs, by rw [cons_append, linePairs_none ht, heq], ?_⟩
      rw [hline, updateLoc_line, Nat.add_assoc]
    | some t =>
      rw [tokensOf_some ht] at hvalid
      refine ⟨newlines p.texts.dropLast, fun loc => ?_⟩
      obtain ⟨m', hnext, hacc⟩ := next_of_accepts (p.texts.foldl updateLoc loc).first hvalid
      obtain ⟨k, rfl⟩ : ∃ k, t = .key k := by
        cases t <;> first | exact ⟨_, rfl⟩ | cases hnext; done | exact absurd ht (hb p (by simp)).1
      cases hnext
      obtain ⟨q, qs, heq, hpos⟩ := linePairs_head rfl hacc (p.texts.foldl updateLoc loc)
      refine ⟨q, qs, by rw [cons_append, linePairs_some ht rfl, heq]; rfl, ?_⟩
      rw [hpos, updateLoc_first (htexts p (by simp))]

/-! ## From line to line -/

/-- A rule that is open is the last one and has a pair. -/
def WellOpen (st : RulesState) : Prop :=
  st.curRule → ∃ rs r, st.rules = rs ++ [r] ∧ r.pairs ≠ []

theorem WellOpen.addPair (h : WellOpen st) (p : Pair) : WellOpen (addPair st p) := by
  intro _
  cases hcur : st.curRule with
  | true =>
    obtain ⟨rs, r, hrules, _⟩ := h hcur
    have := addPairs_open hcur hrules [p]
    exact ⟨rs, _, congrArg RulesState.rules this, by simp⟩
  | false =>
    have := addPairs_fresh hcur p []
    exact ⟨st.rules, _, congrArg RulesState.rules this, by simp⟩

@[simp] theorem endRule_curRule (st : RulesState) : (endRule st).curRule = false := by
  unfold endRule
  split <;> rfl

/-- What adding a pair and ending a rule keep holds in every run. -/
theorem run_preserves {I : RulesState → Prop} (hadd : ∀ st p, I st → I (addPair st p))
    (hend : ∀ st, I st → I (endRule st)) (ps : List Piece) (h : I σ.st) :
    I (σ.run ps).st := by
  have hact {σ : Parser} (h : I σ.st) (t : Token) : I (σ.act t) := by
    unfold Parser.act
    split
    · exact hadd _ _ h
    · split_ifs
      · exact hend _ h
      · exact h
  induction ps generalizing σ with
  | nil => exact h
  | cons p ps ih =>
    refine ih ?_
    cases ht : p.token with
    | none => rwa [step_none ht]
    | some t =>
      rw [step_some ht, Parser.shift]
      split
      · exact h
      · exact hact (σ := { σ with loc := p.texts.foldl updateLoc σ.loc }) h t

theorem WellOpen.run (h : WellOpen σ.st) (ps : List Piece) : WellOpen (σ.run ps).st :=
  run_preserves (fun _ p h => h.addPair p) (fun _ _ hc => by simp at hc) ps h

theorem addPair_files (st : RulesState) (p : Pair) : (addPair st p).files = st.files := by
  unfold addPair
  split <;> rfl

theorem endRule_files (st : RulesState) : (endRule st).files = st.files := by
  unfold endRule
  split <;> rfl

theorem run_files (σ : Parser) (ps : List Piece) : (σ.run ps).st.files = σ.st.files :=
  run_preserves (I := (·.files = σ.st.files)) (fun st p h => (addPair_files st p).trans h)
    (fun st h => (endRule_files st).trans h) ps rfl

/-- The parser is between two lines. -/
structure AtStart (σ : Parser) : Prop where
  mode : σ.mode = .start
  column : σ.loc.last.column = 1
  open_ : WellOpen σ.st

theorem AtStart.run (h : AtStart σ) (hl : IsLine l) : AtStart (σ.run l) := by
  have hopen := h.open_.run l
  obtain ⟨b, rfl, -⟩ := hl
  suffices ∀ ρ : Parser, (ρ.step eolPiece).mode = .start ∧ (ρ.step eolPiece).loc.last.column = 1 by
    rw [run_append] at hopen ⊢
    exact ⟨(this _).1, (this _).2, hopen⟩
  intro ρ
  rw [step_some rfl, Parser.shift]
  cases ρ.mode <;> exact ⟨rfl, rfl⟩

/-- The rule that a line gets if no rule is open at its start -/
def ruleOf (file : Nat) (ps : List Pair) : Rule :=
  ⟨file, ps.head?.elim 0 (·.posKey.line), sortPairs (ps.map processed)⟩

/-- What a line with a rule leaves if no rule was open before it -/
theorem run_rule_fresh (hl : IsLine l) (hr : isRule l) (h : AtStart σ)
    (hcur : σ.st.curRule = false) :
    let ps := linePairs .start σ.loc l
    let r := ruleOf σ.st.files ps
    (σ.run l).st.rules = σ.st.rules ++ [r] ∧ (σ.run l).st.curRule = false ∧
      (σ.run l).st.gotos = σ.st.gotos ++ jumps .goto σ.st.files r.lineNr ps ∧
      (σ.run l).st.labels = σ.st.labels ++ jumps .label σ.st.files r.lineNr ps := by
  obtain ⟨n, hn⟩ := linePairs_start hl hr
  obtain ⟨q, qs, heq, -⟩ := hn σ.loc
  rw [run_rule hl hr h.mode, heq, addPairs_fresh hcur, endRule_withPairs]
  exact ⟨rfl, rfl, rfl, rfl⟩

/-- A rule that was open before the line gets its pairs. -/
theorem run_rule_open (hl : IsLine l) (hr : isRule l) (h : AtStart σ) (hcur : σ.st.curRule) :
    ∃ r : Rule, (σ.run l).st.rules.getLast? = some r ∧ (linePairs .start σ.loc l).length <
      r.pairs.length := by
  obtain ⟨rs, r, hrules, hne⟩ := h.open_ hcur
  rw [run_rule hl hr h.mode, addPairs_open hcur hrules, endRule_withPairs]
  refine ⟨_, getLast?_concat, ?_⟩
  have := length_pos_iff.2 hne
  simp only [sortPairs, length_insertionSort, length_reverse, length_append, length_map]
  omega

theorem Mode.pair?_congr (h : m.blind = m'.blind) (pos pos' : Pos) (t : Token) :
    (m.pair? pos t).toList.length = (m'.pair? pos' t).toList.length := by
  cases m <;> cases m' <;> first | (cases h; done) | (cases t <;> rfl)

theorem length_linePairs (l : List Piece) (h : m.blind = m'.blind) (loc loc' : Loc) :
    (linePairs m loc l).length = (linePairs m' loc' l).length := by
  induction l generalizing m m' loc loc' with
  | nil => rfl
  | cons p l ih =>
    cases ht : p.token with
    | none => rw [linePairs_none ht, linePairs_none ht]; exact ih h _ _
    | some t =>
      simp only [linePairs, ht, length_append]
      rw [Mode.pair?_congr h, ih (Mode.next_congr h _ _ t)]

theorem linePairs_isEmpty (l : List Piece) (loc loc' : Loc) :
    (linePairs .start loc l).isEmpty = (linePairs .start loc' l).isEmpty := by
  rw [Bool.eq_iff_iff, isEmpty_iff_length_eq_zero, isEmpty_iff_length_eq_zero,
    length_linePairs l rfl]

theorem run_eols (n : Nat) (h : AtStart τ) :
    AtStart (τ.run (List.replicate n eolPiece)) ∧
      τ.run (List.replicate n eolPiece) =
        { τ with loc := endLoc τ.loc (List.replicate n eolPiece) } := by
  induction n generalizing τ with
  | zero => exact ⟨h, rfl⟩
  | succ n ih =>
    have hstep : τ.step eolPiece = { τ with loc := endLoc τ.loc [eolPiece] } :=
      run_blank (b := []) rfl h.mode
    have hat : AtStart (τ.step eolPiece) := h.run ⟨[], rfl, by simp⟩
    obtain ⟨h₁, h₂⟩ := ih hat
    rw [replicate_succ, run_cons]
    refine ⟨h₁, h₂.trans ?_⟩
    rw [hstep, endLoc_cons]
    rfl

theorem tokensOf_eq_of_valid (hv : valid l) (hr : isRule l = false) : tokensOf l = [.eol] := by
  simpa [isRule, hv] using hr

/-- A line of the file in which the lines with an error are blank -/
theorem run_blankPieces (hl : IsLine l) (h : AtStart τ) (hcur : τ.st.curRule = false) :
    AtStart (τ.run (blankPieces l)) ∧ (τ.run (blankPieces l)).st.curRule = false ∧
      (τ.run (blankPieces l)).loc.last.line = τ.loc.last.line +
        newlines ((blankPieces l).flatMap Piece.texts) ∧
      (τ.run (blankPieces l)).st.rules =
        τ.st.rules ++ if isRule l then [ruleOf τ.st.files (linePairs .start τ.loc l)] else [] := by
  rw [blankPieces]
  split_ifs with hv hr hr
  · obtain ⟨hrules, hcur', -⟩ := run_rule_fresh hl hr h hcur
    refine ⟨h.run hl, hcur', ?_, hrules⟩
    rw [run_rule hl hr h.mode]
    exact endLoc_line _ _
  · have hat := h.run hl
    have htok := tokensOf_eq_of_valid hv (Bool.eq_false_iff.2 hr)
    obtain ⟨b, rfl, -⟩ := hl
    rw [run_blank htok h.mode] at hat ⊢
    exact ⟨hat, hcur, endLoc_line _ _, (append_nil _).symm⟩
  · exact absurd (of_decide_eq_true hr).1 hv
  · obtain ⟨hat, heq⟩ := run_eols ((textOf l).count 10) h
    rw [heq] at hat ⊢
    exact ⟨hat, hcur, endLoc_line _ _, (append_nil _).symm⟩

/-! ## The rules of the other lines -/

/-- The rules that the lines without a syntax error have got when they end -/
def finished (σ : Parser) : List (List Piece) → List (Option Rule)
  | [] => []
  | l :: ls =>
    if isRule l then (σ.run l).st.rules.getLast? :: finished (σ.run l) ls else finished (σ.run l) ls

/-- At the start of every line with a rule no rule is open and the line counter is right. `n` is the
line that the first line starts at. -/
def Recovered (σ : Parser) (n : Nat) : List (List Piece) → Prop
  | [] => True
  | l :: ls =>
    (isRule l → σ.st.curRule = false ∧ σ.loc.last.line = n) ∧
      Recovered (σ.run l) (n + newlines ((blankPieces l).flatMap Piece.texts)) ls

theorem AtStart.last_eq (hσ : AtStart σ) (hτ : AtStart τ)
    (h : σ.loc.last.line = τ.loc.last.line) : σ.loc.last = τ.loc.last := by
  have hc := hσ.column.trans hτ.column.symm
  obtain ⟨_, ⟨_, ⟨_, _⟩⟩, _⟩ := σ
  obtain ⟨_, ⟨_, ⟨_, _⟩⟩, _⟩ := τ
  simp_all

/-- A line gets the same rule in two runs, in one of which no rule is open at its start, if and only
if no rule is open in the other one either and the line counters are the same. -/
theorem getLast_eq_iff (hl : IsLine l) (hr : isRule l) (hσ : AtStart σ)
    (hτ : AtStart τ) (hfiles : σ.st.files = τ.st.files) :
    (σ.run l).st.rules.getLast? = some (ruleOf τ.st.files (linePairs .start τ.loc l)) ↔
      σ.st.curRule = false ∧ σ.loc.last.line = τ.loc.last.line := by
  cases hcur : σ.st.curRule with
  | true =>
    simp only [Bool.true_eq_false, false_and, iff_false]
    obtain ⟨r, hlast, hlen⟩ := run_rule_open hl hr hσ hcur
    rw [hlast, Option.some_inj]
    rintro rfl
    have := length_linePairs l (m := .start) rfl σ.loc τ.loc
    simp only [ruleOf, sortPairs, length_insertionSort, length_reverse, length_map] at hlen
    omega
  | false =>
    rw [(run_rule_fresh hl hr hσ hcur).1, getLast?_concat, Option.some_inj]
    constructor
    · intro h
      obtain ⟨n, hn⟩ := linePairs_start hl hr
      obtain ⟨q, qs, heq, hline⟩ := hn σ.loc
      obtain ⟨q', qs', heq', hline'⟩ := hn τ.loc
      have : q.posKey.line = q'.posKey.line := by
        rw [heq, heq'] at h
        exact congrArg Rule.lineNr h
      exact ⟨rfl, by omega⟩
    · rintro ⟨-, h⟩
      rw [linePairs_congr hl _ (hσ.last_eq hτ h), hfiles]

variable {ls : List (List Piece)}

/-- The induction over the lines of both files -/
theorem finished_iff (hls : ∀ l ∈ ls, IsLine l) (hσ : AtStart σ)
    (hτ : AtStart τ) (hfiles : σ.st.files = τ.st.files) (hcur : τ.st.curRule = false) :
    ∃ rs, (τ.run (ls.flatMap blankPieces)).st.rules = τ.st.rules ++ rs ∧
      (finished σ ls = rs.map some ↔ Recovered σ τ.loc.last.line ls) := by
  induction ls generalizing σ τ with
  | nil => exact ⟨[], (append_nil _).symm, by simp [finished, Recovered]⟩
  | cons l ls ih =>
    have hl := hls l (by simp)
    obtain ⟨hat, hcur', hline, hrules⟩ := run_blankPieces hl hτ hcur
    have hf : (σ.run l).st.files = (τ.run (blankPieces l)).st.files := by
      rw [run_files, run_files, hfiles]
    obtain ⟨rs, hrs, hiff⟩ :=
      ih (fun l' hl' => hls l' (mem_cons_of_mem _ hl')) (hσ.run hl) hat hf hcur'
    rw [flatMap_cons, run_append, hrs, hrules, finished, Recovered, ← hline, ← hiff]
    cases hr : isRule l with
    | true =>
      refine ⟨ruleOf τ.st.files (linePairs .start τ.loc l) :: rs, by simp, ?_⟩
      have := getLast_eq_iff hl hr hσ hτ hfiles
      simp only [if_true, map_cons, cons.injEq, this, forall_const]
    | false => exact ⟨rs, by simp, by simp⟩

/-! ## What an error leaves behind -/

/-- The pieces behind the last syntax error, from a mode on; `none` if there is no error -/
def behindError : Mode → List Piece → Option (List Piece)
  | _, [] => none
  | m, p :: ps =>
    match p.token with
    | none => behindError m ps
    | some t =>
      match m.next ⟨1, 1⟩ t with
      | some m' => behindError m' ps
      | none => some ((behindError .start ps).getD ps)

/-- An error that does no harm on the first line of a file: all newlines of the line stand behind
its last error, and a pair that is complete on the line is followed by one behind the last error, so
that the rule is ended. -/
def Harmless (l : List Piece) : Prop :=
  ∃ r, behindError .start l = some r ∧ newlines (r.flatMap Piece.texts) = (textOf l).count 10 ∧
    (linePairs .start .default r ≠ [] ∨ linePairs .start .default l = [])

instance (l : List Piece) : Decidable (Harmless l) :=
  match h : behindError .start l with
  | none => isFalse fun ⟨_, hr, _⟩ => nomatch h.symm.trans hr
  | some r => decidable_of_iff (newlines (r.flatMap Piece.texts) = (textOf l).count 10 ∧
      (linePairs .start .default r ≠ [] ∨ linePairs .start .default l = []))
      ⟨fun hr => ⟨r, h, hr⟩, fun ⟨_, hr', hr⟩ => Option.some.inj (h.symm.trans hr') ▸ hr⟩

/-- No line with a rule follows a line with an error, unless this is the first line and does no
harm. -/
def Tolerable : List (List Piece) → Prop
  | [] => True
  | e :: ls => (valid e = false → ¬Harmless e → ∀ l ∈ ls, isRule l = false) ∧
      ls.Pairwise fun e l => valid e = false → isRule l = false

instance : (ls : List (List Piece)) → Decidable (Tolerable ls)
  | [] => isTrue trivial
  | _ :: _ => inferInstanceAs (Decidable (_ ∧ _))

/-- A line has no syntax error if the automaton finds none. -/
theorem accepts_iff (b : List Piece) (m : Mode) :
    accepts m (tokensOf (b ++ [eolPiece])) ↔ behindError m (b ++ [eolPiece]) = none := by
  induction b generalizing m with
  | nil => cases m <;> simp [accepts, behindError, tokensOf, eolPiece, Mode.next]
  | cons p b ih =>
    rw [cons_append]
    cases ht : p.token with
    | none =>
      rw [tokensOf_none ht, ih]
      simp only [behindError, ht]
    | some t =>
      rw [tokensOf_some ht]
      simp only [accepts, behindError, ht]
      cases m.next ⟨1, 1⟩ t with
      | none => simp
      | some m' => exact ih m'

theorem linePairs_blank (hb : tokensOf (b ++ [eolPiece]) = [.eol]) (loc : Loc) :
    linePairs .start loc (b ++ [eolPiece]) = [] := by
  rw [tokensOf_line, append_left_eq_self] at hb
  induction b generalizing loc with
  | nil => rfl
  | cons p b ih =>
    cases ht : p.token with
    | none =>
      rw [tokensOf_none ht] at hb
      rw [cons_append, linePairs_none ht, ih hb]
    | some t => simp [tokensOf_some ht] at hb

/-- A line without an error has a pair if and only if it has a rule. -/
theorem isEmpty_linePairs (hl : IsLine l) (hv : valid l) (loc : Loc) :
    (linePairs .start loc l).isEmpty = !isRule l := by
  cases hr : isRule l with
  | true =>
    obtain ⟨n, hn⟩ := linePairs_start hl hr
    obtain ⟨q, qs, heq, -⟩ := hn loc
    rw [heq]
    rfl
  | false =>
    have htok := tokensOf_eq_of_valid hv hr
    obtain ⟨b, rfl, -⟩ := hl
    rw [linePairs_blank htok]
    rfl

/-- The state behind a line without an error -/
theorem run_valid_line (hl : IsLine l) (hv : valid l) (hσ : σ.mode = .start) :
    (σ.run l).loc.last.line = σ.loc.last.line + newlines (l.flatMap Piece.texts) ∧
      (σ.run l).st.curRule = (σ.st.curRule && !isRule l) := by
  cases hr : isRule l with
  | true =>
    rw [run_rule hl hr hσ]
    exact ⟨endLoc_line _ _, by simp⟩
  | false =>
    have htok := tokensOf_eq_of_valid hv hr
    obtain ⟨b, rfl, -⟩ := hl
    rw [run_blank htok hσ]
    exact ⟨endLoc_line _ _, by simp⟩

theorem addPair_curRule (st : RulesState) (p : Pair) : (addPair st p).curRule = true := by
  unfold addPair processToken
  split
  · next hcur _ => exact hcur
  · rfl

/-- The state behind a line with an error: lines are counted from the last error on, and a rule is
open if one was open before or a pair is complete, and no pair stands behind the last error. -/
theorem run_error (hb : ∀ p ∈ b, p.token ≠ some .eol ∧ p.texts ≠ []) {r : List Piece}
    (m : Mode) (loc : Loc) (st : RulesState) (h : behindError m.blind (b ++ [eolPiece]) = some r) :
    (Parser.run ⟨m, loc, st⟩ (b ++ [eolPiece])).loc.last.line =
      1 + newlines (r.flatMap Piece.texts) ∧
      (Parser.run ⟨m, loc, st⟩ (b ++ [eolPiece])).st.curRule =
        ((linePairs .start .default r).isEmpty &&
        (st.curRule || !(linePairs m loc (b ++ [eolPiece])).isEmpty)) := by
  induction b generalizing m loc st with
  | nil => cases m <;> cases h <;> exact ⟨rfl, (Bool.or_false _).symm⟩
  | cons p b ih =>
    have hb' : ∀ q ∈ b, q.token ≠ some .eol ∧ q.texts ≠ [] :=
      fun q hq => hb q (mem_cons_of_mem _ hq)
    rw [cons_append, run_cons]
    cases ht : p.token with
    | none =>
      simp only [cons_append, behindError, ht] at h
      rw [step_none ht, linePairs_none ht]
      exact ih hb' m _ st h
    | some t =>
      have hneol : t ≠ .eol := fun e => (hb p (by simp)).1 (e ▸ ht)
      simp only [cons_append, behindError, ht,
        ← next_blind m (p.texts.foldl updateLoc loc).first] at h
      rw [step_some ht, Parser.shift]
      cases hm : m.next (p.texts.foldl updateLoc loc).first t with
      | some m' =>
        simp only [hm, Option.map_some] at h ⊢
        obtain ⟨hline, hcur⟩ := ih hb' m' _ (Parser.act ⟨m, p.texts.foldl updateLoc loc, st⟩ t) h
        refine ⟨hline, hcur.trans ?_⟩
        rw [linePairs_some ht hm]
        simp only [Parser.act, hneol, and_false, if_false]
        cases m.pair? (p.texts.foldl updateLoc loc).first t with
        | none => rfl
        | some q => simp [addPair_curRule]
      | none =>
        simp only [hm, Option.map_none, Option.some.injEq] at h ⊢
        have hpairs : (linePairs m loc (p :: (b ++ [eolPiece]))).isEmpty =
            (linePairs .start .default (b ++ [eolPiece])).isEmpty := by
          simp only [linePairs, ht, Mode.pair?_eq_none hm, hm, Option.getD_none,
            Option.toList_none, nil_append]
          exact linePairs_isEmpty _ _ _
        rw [hpairs]
        cases hrest : behindError .start (b ++ [eolPiece]) with
        | some r' =>
          rw [hrest] at h
          cases h
          exact ih hb' .start .default st hrest
        | none =>
          rw [hrest] at h
          cases h
          have hv : valid (b ++ [eolPiece]) := (accepts_iff b .start).2 hrest
          have hl : IsLine (b ++ [eolPiece]) := ⟨b, rfl, hb'⟩
          obtain ⟨hline, hcur⟩ := run_valid_line hl hv (σ := ⟨.start, .default, st⟩) rfl
          refine ⟨hline, hcur.trans ?_⟩
          rw [Option.getD_none, isEmpty_linePairs hl hv]
          cases isRule (b ++ [eolPiece]) <;> simp

/-! ### The counter -/

theorem newlines_append (ts us : List Bytes) : newlines (ts ++ us) = newlines ts + newlines us := by
  simp [newlines]

theorem newlines_le_count (ps : List Piece) :
    newlines (ps.flatMap Piece.texts) ≤ (textOf ps).count 10 := by
  have hle (ts : List Bytes) : newlines ts ≤ ts.flatten.count 10 := by
    induction ts with
    | nil => exact le_rfl
    | cons t ts ih =>
      rw [flatten_cons, count_append]
      exact Nat.add_le_add ((takeWhile_sublist _).count_le 10) ih
  have htext : textOf ps = (ps.flatMap Piece.texts).flatten := by
    induction ps with
    | nil => rfl
    | cons p ps ih => rw [textOf_cons, ih, flatMap_cons, flatten_append]; rfl
  rw [htext]
  exact hle _

theorem behindError_suffix {r : List Piece} (h : behindError m ps = some r) : r <:+ ps := by
  induction ps generalizing m with
  | nil => cases h
  | cons p ps ih =>
    unfold behindError at h
    split at h
    · exact (ih h).trans (suffix_cons p ps)
    · split at h
      · exact (ih h).trans (suffix_cons p ps)
      · cases hrest : behindError .start ps with
        | none =>
          rw [← Option.some.inj h, hrest]
          exact suffix_cons p ps
        | some r' =>
          rw [hrest] at h
          exact (ih (hrest.trans h)).trans (suffix_cons p ps)

theorem one_le_newlines (hl : IsLine l) : 1 ≤ newlines (l.flatMap Piece.texts) := by
  obtain ⟨b, rfl, -⟩ := hl
  rw [flatMap_append, newlines_append]
  have : newlines ([eolPiece].flatMap Piece.texts) = 1 := by decide
  omega

theorem newlines_blankPieces (l : List Piece) : newlines ((blankPieces l).flatMap Piece.texts) =
    if valid l then newlines (l.flatMap Piece.texts) else (textOf l).count 10 := by
  have heols (n : Nat) : newlines ((List.replicate n eolPiece).flatMap Piece.texts) = n := by
    induction n with
    | zero => rfl
    | succ n ih =>
      rw [replicate_succ, flatMap_cons, newlines_append, ih, Nat.add_comm]
      rfl
  rw [blankPieces]
  split_ifs
  · rfl
  · exact heols _

/-- The state behind a line with an error -/
theorem run_invalid_line (hl : IsLine l) (hv : valid l = false) (hσ : σ.mode = .start) :
    ∃ r, behindError .start l = some r ∧
      (σ.run l).loc.last.line = 1 + newlines (r.flatMap Piece.texts) ∧
      (σ.run l).st.curRule = ((linePairs .start .default r).isEmpty &&
        (σ.st.curRule || !(linePairs .start .default l).isEmpty)) := by
  obtain ⟨b, rfl, hb⟩ := hl
  have hne : behindError .start (b ++ [eolPiece]) ≠ none := fun h =>
    absurd ((accepts_iff b .start).2 h) (Bool.eq_false_iff.1 hv)
  obtain ⟨r, hr⟩ := Option.ne_none_iff_exists'.1 hne
  obtain ⟨m, loc, st⟩ := σ
  cases hσ
  obtain ⟨hline, hcur⟩ := run_error hb .start loc st hr
  exact ⟨r, hr, hline, by rw [hcur, linePairs_isEmpty _ loc .default]⟩

/-- The line counter is behind, or a rule is open. -/
def Disturbed (σ : Parser) (n : Nat) : Prop :=
  2 ≤ n ∧ (σ.loc.last.line < n ∨ σ.st.curRule ∧ σ.loc.last.line ≤ n)

/-- From the second line on an error leaves the counter behind. -/
theorem disturbed_of_invalid (hl : IsLine l) (hv : valid l = false) (hσ : σ.mode = .start)
    {n : Nat} (hn : 2 ≤ n) :
    Disturbed (σ.run l) (n + newlines ((blankPieces l).flatMap Piece.texts)) := by
  obtain ⟨r, hr, hline, -⟩ := run_invalid_line hl hv hσ
  obtain ⟨u, rfl⟩ := behindError_suffix hr
  have hle := newlines_le_count (u ++ r)
  rw [flatMap_append, newlines_append] at hle
  rw [newlines_blankPieces, hv, if_neg (by decide)]
  exact ⟨by omega, .inl (by omega)⟩

/-- Nothing but a rule line shows that something is wrong, and nothing mends it. -/
theorem recovered_of_disturbed (hls : ∀ l ∈ ls, IsLine l) (hσ : AtStart σ) {n : Nat}
    (h : Disturbed σ n) : Recovered σ n ls ↔ ∀ l ∈ ls, isRule l = false := by
  induction ls generalizing σ n with
  | nil => simp [Recovered]
  | cons l ls ih =>
    obtain ⟨hl, hls⟩ := forall_mem_cons.1 hls
    rw [Recovered, forall_mem_cons]
    cases hr : isRule l with
    | true =>
      obtain ⟨-, hlt | ⟨hcur, -⟩⟩ := h
      · exact iff_of_false (fun hrec => absurd (hrec.1 rfl).2 hlt.ne) (nomatch ·.1)
      · exact iff_of_false (fun hrec => by simp [hrec.1 rfl] at hcur) (nomatch ·.1)
    | false =>
      have h' : Disturbed (σ.run l) (n + newlines ((blankPieces l).flatMap Piece.texts)) := by
        cases hv : valid l with
        | false => exact disturbed_of_invalid hl hv hσ.mode h.1
        | true =>
          obtain ⟨hline, hcur⟩ := run_valid_line hl hv hσ.mode
          rw [hr] at hcur
          rw [newlines_blankPieces, hv, if_pos rfl, Disturbed, hline, hcur]
          simp only [Bool.not_false, Bool.and_true, Nat.add_lt_add_iff_right,
            Nat.add_le_add_iff_right]
          exact ⟨Nat.le_add_right_of_le h.1, h.2⟩
      simpa using ih hls (hσ.run hl) h'

/-- As long as everything is right only an error does harm. -/
theorem recovered_in_step (hls : ∀ l ∈ ls, IsLine l) (hσ : AtStart σ)
    {n : Nat} (hn : 2 ≤ n) (hcur : σ.st.curRule = false) (hline : σ.loc.last.line = n) :
    Recovered σ n ls ↔ ls.Pairwise fun e l => valid e = false → isRule l = false := by
  induction ls generalizing σ n with
  | nil => simp [Recovered]
  | cons l ls ih =>
    obtain ⟨hl, hls⟩ := forall_mem_cons.1 hls
    rw [Recovered, pairwise_cons]
    simp only [hcur, hline, and_self, implies_true, true_and]
    cases hv : valid l with
    | false =>
      rw [recovered_of_disturbed hls (hσ.run hl) (disturbed_of_invalid hl hv hσ.mode hn)]
      simp only [forall_const]
      exact ⟨fun h => ⟨h, pairwise_of_forall_mem_list fun _ _ l hl _ => h l hl⟩, And.left⟩
    | true =>
      obtain ⟨hline', hcur'⟩ := run_valid_line hl hv hσ.mode
      rw [newlines_blankPieces, hv, if_pos rfl,
        ih hls (hσ.run hl) (by omega) (by rw [hcur', hcur]; rfl) (by omega)]
      simp

theorem atStart_open (st : RulesState) : AtStart (.open_ st) :=
  ⟨rfl, rfl, nofun⟩

/-- At the start of every line with a rule everything is right if and only if no such line follows
an error, one on the first line that does no harm apart. -/
theorem recovered_iff (hls : ∀ l ∈ ls, IsLine l) (st : RulesState) :
    Recovered (.open_ st) 1 ls ↔ Tolerable ls := by
  cases ls with
  | nil => simp [Recovered, Tolerable]
  | cons l ls =>
    obtain ⟨hl, hls⟩ := forall_mem_cons.1 hls
    have hat := atStart_open st
    rw [Recovered, Tolerable, and_iff_right (fun _ => ⟨rfl, rfl⟩)]
    cases hv : valid l with
    | true =>
      obtain ⟨hline, hcur⟩ := run_valid_line hl hv hat.mode
      have hpos := one_le_newlines hl
      rw [newlines_blankPieces, hv, if_pos rfl]
      simpa using recovered_in_step hls (hat.run hl) (n := 1 + _) (by omega) hcur hline
    | false =>
      obtain ⟨r, hr, hline, hcur⟩ := run_invalid_line hl hv hat.mode
      obtain ⟨u, hu⟩ := behindError_suffix hr
      have hle := newlines_le_count l
      have hpos := one_le_newlines hl
      have hsum :
          newlines (l.flatMap Piece.texts) = newlines (u.flatMap Piece.texts) +
            newlines (r.flatMap Piece.texts) := by
        rw [← hu, flatMap_append, newlines_append]
      rw [newlines_blankPieces, hv, if_neg (by decide)]
      by_cases hharm : Harmless l
      · obtain ⟨r', hr', hnl, hpairs⟩ := hharm
        cases hr.symm.trans hr'
        rw [recovered_in_step hls (hat.run hl) (by omega) ?_ (by omega)]
        · simp [show Harmless l from ⟨r, hr, hnl, hpairs⟩]
        · rw [hcur]
          rcases hpairs with h | h <;> simp [h, Parser.open_]
      · have hdist : Disturbed ((Parser.open_ st).run l) (1 + (textOf l).count 10) := by
          refine ⟨by omega, ?_⟩
          by_cases hnl : newlines (r.flatMap Piece.texts) = (textOf l).count 10
          · refine .inr ⟨?_, by omega⟩
            rw [hcur]
            have : ¬(linePairs .start .default r ≠ [] ∨ linePairs .start .default l = []) :=
              fun h =>
              hharm ⟨r, hr, hnl, h⟩
            rw [not_or, not_not] at this
            simp [this.1, this.2]
          · exact .inl (by omega)
        rw [recovered_of_disturbed hls (hat.run hl) hdist]
        simp only [hharm, not_false_eq_true, forall_const]
        exact ⟨fun h => ⟨h, pairwise_of_forall_mem_list fun _ _ l hl _ => h l hl⟩, And.left⟩

/-! ## Jumps and labels of the other lines -/

/-- There is no `GOTO` and no `LABEL` among the pieces. -/
def NoJumps (ps : List Piece) : Prop :=
  ∀ t ∈ tokensOf ps, t ≠ .key .goto ∧ t ≠ .key .label

instance (ps : List Piece) : Decidable (NoJumps ps) :=
  inferInstanceAs (Decidable (∀ t ∈ tokensOf ps, _))

/-- The pair that is being read has a key for which nothing is registered. -/
def Mode.harmless : Mode → Prop
  | .key k _ | .attr k _ _ | .op k _ _ _ _ => k ≠ .goto ∧ k ≠ .label
  | _ => True

theorem Mode.harmless_next (hm : m.harmless)
    (ht : t ≠ .key .goto ∧ t ≠ .key .label) (h : m.next pos t = some m') : m'.harmless := by
  cases m <;> cases t <;> first | (cases h; done) | (cases h; exact hm) | (cases h; trivial) |
    (cases h; exact ⟨fun e => ht.1 (e ▸ rfl), fun e => ht.2 (e ▸ rfl)⟩)

theorem addPair_gotos {p : Pair} (h : p.key ≠ .goto ∧ p.key ≠ .label) :
    (addPair st p).gotos = st.gotos ∧ (addPair st p).labels = st.labels := by
  unfold addPair
  split <;> simp [processToken, h]

theorem endRule_gotos (st : RulesState) :
    (endRule st).gotos = st.gotos ∧ (endRule st).labels = st.labels := by
  unfold endRule
  split <;> exact ⟨rfl, rfl⟩

theorem act_gotos (hm : σ.mode.harmless) (t : Token) :
    (σ.act t).gotos = σ.st.gotos ∧ (σ.act t).labels = σ.st.labels := by
  unfold Parser.act
  split
  · next p hp =>
    refine addPair_gotos ?_
    unfold Mode.pair? at hp
    split at hp <;> cases hp
    next hmode => rwa [hmode] at hm
  · split_ifs
    · exact endRule_gotos _
    · exact ⟨rfl, rfl⟩

/-- Pieces without jumps and labels register nothing. -/
theorem run_noJumps (hps : NoJumps ps) (hm : σ.mode.harmless) :
    (σ.run ps).st.gotos = σ.st.gotos ∧ (σ.run ps).st.labels = σ.st.labels := by
  induction ps generalizing σ with
  | nil => exact ⟨rfl, rfl⟩
  | cons p ps ih =>
    rw [run_cons]
    cases ht : p.token with
    | none =>
      rw [NoJumps, tokensOf_none ht] at hps
      rw [step_none ht]
      exact ih hps hm
    | some t =>
      rw [NoJumps, tokensOf_some ht, forall_mem_cons] at hps
      rw [step_some ht, Parser.shift]
      split
      · exact ih hps.2 trivial
      · next m hnext =>
        have hact := act_gotos (σ := { σ with loc := p.texts.foldl updateLoc σ.loc }) hm t
        have hm' : m.harmless := Mode.harmless_next hm hps.1 hnext
        exact ⟨(ih hps.2 hm').1.trans hact.1, (ih hps.2 hm').2.trans hact.2⟩

/-- What is registered does not depend on lines with a syntax error that have no jumps and no
labels. -/
theorem run_jumps (hls : ∀ l ∈ ls, IsLine l)
    (hno : ∀ l ∈ ls, valid l = false → NoJumps l) (hσ : AtStart σ) (hτ : AtStart τ)
    (hfiles : σ.st.files = τ.st.files) (hcur : τ.st.curRule = false)
    (hrec : Recovered σ τ.loc.last.line ls)
    (heq : σ.st.gotos = τ.st.gotos ∧ σ.st.labels = τ.st.labels) :
    (σ.run ls.flatten).st.gotos = (τ.run (ls.flatMap blankPieces)).st.gotos ∧
      (σ.run ls.flatten).st.labels = (τ.run (ls.flatMap blankPieces)).st.labels := by
  induction ls generalizing σ τ with
  | nil => exact heq
  | cons l ls ih =>
    have hl := hls l (by simp)
    obtain ⟨hat, hcur', hline, -⟩ := run_blankPieces hl hτ hcur
    obtain ⟨hl_rec, hrec'⟩ := hrec
    rw [flatten_cons, flatMap_cons, run_append, run_append]
    refine ih (fun l' h => hls l' (mem_cons_of_mem _ h)) (fun l' h => hno l' (mem_cons_of_mem _ h))
      (hσ.run hl) hat (by rw [run_files, run_files, hfiles]) hcur' (hline ▸ hrec') ?_
    cases hv : valid l with
    | false =>
      rw [blankPieces, hv, if_neg (by decide), (run_eols _ hτ).2]
      have := run_noJumps (hno l (by simp) hv) (σ := σ) (by rw [hσ.mode]; trivial)
      exact ⟨this.1.trans heq.1, this.2.trans heq.2⟩
    | true =>
      rw [blankPieces, hv, if_pos rfl]
      cases hr : isRule l with
      | true =>
        obtain ⟨hσcur, hlines⟩ := hl_rec hr
        have hpairs := linePairs_congr hl .start (hσ.last_eq hτ hlines)
        obtain ⟨-, -, hgotos, hlabels⟩ := run_rule_fresh hl hr hσ hσcur
        obtain ⟨-, -, hgotos', hlabels'⟩ := run_rule_fresh hl hr hτ hcur
        rw [hgotos, hlabels, hgotos', hlabels', hpairs, hfiles, heq.1, heq.2]
        exact ⟨rfl, rfl⟩
      | false =>
        have htok := tokensOf_eq_of_valid hv hr
        obtain ⟨b, rfl, -⟩ := hl
        rw [run_blank htok hσ.mode, run_blank htok hτ.mode]
        exact heq

/-- Blanks, comments and ends of lines change nothing. -/
theorem run_quiet (hps : ∀ p ∈ ps, p.token = none ∨ p = eolPiece)
    (hτ : τ.mode = .start) : (τ.run ps).st = τ.st := by
  induction ps generalizing τ with
  | nil => rfl
  | cons p ps ih =>
    have ih := fun τ => @ih τ fun q hq => hps q (mem_cons_of_mem _ hq)
    rw [run_cons]
    rcases hps p (by simp) with ht | rfl
    · rw [step_none ht]
      exact ih _ hτ
    · obtain ⟨m, loc, st⟩ := τ
      cases hτ
      exact ih _ rfl

/-! ## The file -/

/-- The lines of a file, and what stands behind the last `EOL` -/
def allLines (s : Bytes) : List (List Piece) := logicalLines s ++ [(splitLines (scan s)).2]

/-- The lines without a syntax error get the rules that they get in the file in which the other
lines are blank, or the program dies on both files. -/
def Isolated (st : RulesState) (s : Bytes) : Prop :=
  (rulesReadfile st s).map (fun _ => st.rules.map some ++ finished (.open_ st) (logicalLines s)) =
    (rulesReadfile st (blankInvalid s)).map fun st' => st'.rules.map some

instance (st : RulesState) (s : Bytes) : Decidable (Isolated st s) :=
  inferInstanceAs (Decidable (_ = _))

theorem accepts_noEol {m : Mode} {ts : List Token} (h : .eol ∉ ts) (hacc : accepts m ts) :
    m = .start ∧ ts = [] := by
  induction ts generalizing m with
  | nil => exact ⟨of_decide_eq_true hacc, rfl⟩
  | cons t ts ih =>
    rw [mem_cons, not_or] at h
    rw [accepts] at hacc
    cases hm : m.next ⟨1, 1⟩ t with
    | none => simp [hm] at hacc
    | some m' =>
      simp only [hm] at hacc
      exact absurd (ih h.2 hacc).1 (next_ne_start (Ne.symm h.1) hm)

theorem splitLines_snd (ps : List Piece) : ∀ p ∈ (splitLines ps).2, p.token ≠ some .eol := by
  induction ps with
  | nil => simp [splitLines]
  | cons p ps ih =>
    rw [splitLines]
    split_ifs with hp
    · exact ih
    · split
      · next heq =>
        rw [heq] at ih
        exact forall_mem_cons.2 ⟨hp, ih⟩
      · next heq =>
        rw [heq] at ih
        exact ih

/-- What stands behind the last `EOL` has no token, or it is no line without an error. -/
theorem tokensOf_last {s : Bytes} (h : valid (splitLines (scan s)).2) :
    tokensOf (splitLines (scan s)).2 = [] := by
  refine (accepts_noEol (fun hmem => ?_) h).2
  obtain ⟨p, hp, ht⟩ := mem_filterMap.1 hmem
  exact splitLines_snd _ p hp ht

/-- A run over whole lines, and whether it dies -/
theorem AtStart.run_lines (hls : ∀ l ∈ ls, IsLine l) (hσ : AtStart σ) :
    AtStart (σ.run ls.flatten) ∧ (σ.run ls.flatten).st.fault =
      (σ.st.fault || ls.any fun l => (linePairs .start .default l).any readsMissingAttr) := by
  induction ls generalizing σ with
  | nil => exact ⟨hσ, (Bool.or_false _).symm⟩
  | cons l ls ih =>
    obtain ⟨hl, hls⟩ := forall_mem_cons.1 hls
    obtain ⟨hat, hfault⟩ := ih hls (hσ.run hl)
    rw [flatten_cons, run_append]
    refine ⟨hat, ?_⟩
    rw [hfault, run_fault l (m := .start) (by rw [hσ.mode]) .default, any_cons, Bool.or_assoc]

theorem AtStart.run_blanked (hls : ∀ l ∈ ls, IsLine l) (hτ : AtStart τ)
    (hcur : τ.st.curRule = false) : AtStart (τ.run (ls.flatMap blankPieces)) ∧
      (τ.run (ls.flatMap blankPieces)).st.fault = (τ.st.fault ||
        ls.any fun l => valid l && (linePairs .start .default l).any readsMissingAttr) := by
  induction ls generalizing τ with
  | nil => exact ⟨hτ, (Bool.or_false _).symm⟩
  | cons l ls ih =>
    obtain ⟨hl, hls⟩ := forall_mem_cons.1 hls
    obtain ⟨hat, hcur', -⟩ := run_blankPieces hl hτ hcur
    obtain ⟨hend, hfault⟩ := ih hls hat hcur'
    rw [flatMap_cons, run_append]
    refine ⟨hend, ?_⟩
    rw [hfault, any_cons, ← Bool.or_assoc]
    congr 1
    rw [blankPieces]
    split_ifs with hv
    · rw [run_fault l (m := .start) (by rw [hτ.mode]) .default, hv, Bool.true_and]
    · rw [(run_eols _ hτ).2, Bool.eq_false_iff.2 hv, Bool.false_and, Bool.or_false]

/-- The program dies on a file if and only if it dies on some line. -/
theorem rulesReadfile_eq (st : RulesState) (s : Bytes) :
    rulesReadfile st s = if ∃ l ∈ allLines s, Dies l then none else some (parsed st s) := by
  have hls : ∀ l ∈ logicalLines s, IsLine l := fun l => isLine_of_mem
  obtain ⟨hat, hfault⟩ := (atStart_open st).run_lines hls
  have hrun :
      (parsed st s).fault =
        ((allLines s).any fun l => (linePairs .start .default l).any readsMissingAttr) := by
    rw [parsed, ← splitLines_flatten (scan s), run_append, ← logicalLines,
      run_fault _ (m := .start) (by rw [hat.mode]) .default, hfault]
    simp [allLines, Parser.open_]
  have hover : (scan s).any Piece.overruns = (allLines s).any fun l => l.any Piece.overruns := by
    nth_rewrite 1 [← splitLines_flatten (scan s)]
    simp [allLines, logicalLines]
  rw [rulesReadfile, hrun, hover]
  refine if_congr ?_ rfl rfl
  simp only [Bool.or_eq_true, any_eq_true, Dies]
  grind

theorem parsed_blank (st : RulesState) (s : Bytes) : parsed st (blankInvalid s) =
      ((Parser.open_ st).run ((logicalLines s).flatMap blankPieces)).st := by
  obtain ⟨ps, hscan, hps⟩ := scan_blankInvalid s
  rw [parsed, hscan, run_append]
  exact run_quiet hps ((atStart_open st).run_blanked (fun l => isLine_of_mem) rfl).1.mode

/-- The same for the file in which the lines with an error are blank -/
theorem rulesReadfile_blank (st : RulesState) (s : Bytes) : rulesReadfile st (blankInvalid s) =
      if ∃ l ∈ logicalLines s, valid l ∧ Dies l then none
        else some (parsed st (blankInvalid s)) := by
  obtain ⟨ps, hscan, hps⟩ := scan_blankInvalid s
  have hfault :=
    ((atStart_open st).run_blanked (fun l (hl : l ∈ logicalLines s) => isLine_of_mem hl) rfl).2
  have hquiet : ps.any Piece.overruns = false := by
    rw [any_eq_false]
    intro p hp
    rcases hps p hp with h | rfl
    · simp [Piece.overruns, h]
    · decide
  have hblank (l : List Piece) :
      (blankPieces l).any Piece.overruns = (valid l && l.any Piece.overruns) := by
    rw [blankPieces]
    split_ifs with hv
    · simp [hv]
    · simp [hv, show eolPiece.overruns = false from rfl]
  rw [rulesReadfile, parsed_blank, hfault, hscan, any_append, hquiet, any_flatMap]
  refine if_congr ?_ rfl rfl
  simp only [hblank, Bool.or_eq_true, Bool.and_eq_true, any_eq_true, Dies, Parser.open_]
  grind

/-- `x`, `GOTO="a"` and `LABEL="a"` on three lines -/
def errorFirst : Bytes := text "x\nGOTO=\"a\"\nLABEL=\"a\"\n"

end MakeInitrd.Udev
