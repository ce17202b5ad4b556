import MakeInitrd.Udev.Parser

/-!
# Logical lines of a rules file

A logical line is what the scanner takes up to a token `EOL`, so a continuation, a comment or an
attribute may put several lines of the file into it. A line that the grammar rejects is made blank
by as many newlines (`blankInvalid`). The other lines are scanned as before (`scan_blankInvalid`):
taking text away can never close a brace.
-/

namespace MakeInitrd.Udev

open CMem List

/-! ## Scanning piece by piece -/

def textOf (ps : List Piece) : Bytes := ps.flatMap Piece.text

def tokensOf (ps : List Piece) : List Token := ps.filterMap Piece.token

@[simp] theorem textOf_cons (p : Piece) (ps : List Piece) :
    textOf (p :: ps) = p.text ++ textOf ps := rfl

@[simp] theorem textOf_append (ps qs : List Piece) : textOf (ps ++ qs) = textOf ps ++ textOf qs :=
  flatMap_append

/-- The scanner takes the pieces and leaves a text. -/
inductive Scans : Bytes → List Piece → Bytes → Prop
  | nil (s : Bytes) : Scans s [] s
  | cons {s s' r : Bytes} {p : Piece} {ps : List Piece} :
    next s = some (p, s') → Scans s' ps r → Scans s (p :: ps) r

variable {s r : Bytes} {ps : List Piece}

theorem Scans.text (h : Scans s ps r) : s = textOf ps ++ r := by
  induction h with
  | nil => rfl
  | cons hn _ ih => rw [next_text hn, ih]; simp

theorem Scans.append {m : Bytes} {qs : List Piece} (h : Scans s ps m) (h' : Scans m qs r) :
    Scans s (ps ++ qs) r := by
  induction h with
  | nil => exact h'
  | cons hn _ ih => exact .cons hn (ih h')

theorem Scans.split {qs : List Piece} (h : Scans s (ps ++ qs) r) :
    ∃ m, Scans s ps m ∧ Scans m qs r := by
  induction ps generalizing s with
  | nil => exact ⟨s, .nil s, h⟩
  | cons p ps ih =>
    cases h with
    | cons hn h =>
      obtain ⟨m, h₁, h₂⟩ := ih h
      exact ⟨m, .cons hn h₁, h₂⟩

variable {p : Piece}

theorem next_text_ne (h : next s = some (p, r)) : p.text ≠ [] := by
  cases s with
  | nil => cases h
  | cons c s =>
    rw [next] at h
    split_ifs at h
    all_goals try (cases h; simp [Piece.text])
    · obtain ⟨⟨v, ts, r'⟩, _, he⟩ := Option.map_eq_some_iff.1 h
      cases he
      simp [Piece.text]
    · rw [nextShort] at h
      split at h <;> cases h
      · next ho => simpa [Piece.text] using (opAt_length ho).1.ne'
      · next hk => simpa [Piece.text] using (keyAt_length hk).1.ne'
      · simp [Piece.text]

theorem next_length (h : next s = some (p, r)) : r.length < s.length := by
  have htext := congrArg length (next_text h)
  have := length_pos_iff.2 (next_text_ne h)
  grind

theorem scanFuel_succ {n : Nat} (h : s.length ≤ n) : scanFuel (n + 1) s = scanFuel n s := by
  induction n generalizing s with
  | zero =>
    obtain rfl : s = [] := length_eq_zero_iff.1 (by omega)
    rfl
  | succ n ih =>
    rw [scanFuel, scanFuel]
    cases hn : next s with
    | none => rfl
    | some q => simp only [ih (show q.2.length ≤ n by have := next_length hn; omega)]

theorem scanFuel_eq {n : Nat} (h : s.length ≤ n) : scanFuel n s = scan s := by
  induction n, h using Nat.le_induction with
  | base => rfl
  | succ n hn ih => rw [scanFuel_succ hn, ih]

@[simp] theorem scan_nil : scan [] = [] := rfl

theorem scan_cons (h : next s = some (p, r)) : scan s = p :: scan r := by
  have hlen := next_length h
  rw [scan, ← scanFuel_succ le_rfl, scanFuel, h]
  exact congrArg _ (scanFuel_eq (by omega))

theorem Scans.scan (h : Scans s ps r) : Udev.scan s = ps ++ Udev.scan r := by
  induction h with
  | nil => rfl
  | cons hn _ ih => rw [scan_cons hn, ih]; rfl

theorem scans_scan (s : Bytes) : ∃ r, Scans s (scan s) r := by
  suffices ∀ n, ∃ r, Scans s (scanFuel n s) r from this _
  intro n
  induction n generalizing s with
  | zero => exact ⟨s, .nil s⟩
  | succ n ih =>
    rw [scanFuel]
    cases hn : next s with
    | none => exact ⟨s, .nil s⟩
    | some q =>
      obtain ⟨r, hr⟩ := ih q.2
      exact ⟨r, .cons hn hr⟩

/-! ## Lines -/

/-- The pieces cut behind each `EOL`, and what stands behind the last one -/
def splitLines : List Piece → List (List Piece) × List Piece
  | [] => ([], [])
  | p :: ps =>
    if p.token = some .eol then ([p] :: (splitLines ps).1, (splitLines ps).2)
    else
      match splitLines ps with
      | ([], rest) => ([], p :: rest)
      | (l :: ls, rest) => ((p :: l) :: ls, rest)

/-- The logical lines of a file; what stands behind the last `EOL` is none. -/
def logicalLines (s : Bytes) : List (List Piece) := (splitLines (scan s)).1

/-- The tokens lead from a mode back to the start without a syntax error. Positions do not matter
here. -/
def accepts : Mode → List Token → Bool
  | m, [] => m = .start
  | m, t :: ts =>
    match m.next ⟨1, 1⟩ t with
    | none => false
    | some m' => accepts m' ts

def valid (l : List Piece) : Bool := accepts .start (tokensOf l)

/-- The line has no syntax error and is not blank. -/
def isRule (l : List Piece) : Bool := valid l ∧ tokensOf l ≠ [.eol]

/-- A line, or as many blank lines if it is not valid -/
def blankLine (l : List Piece) : Bytes :=
  if valid l then textOf l else List.replicate ((textOf l).count 10) 10

/-- The text behind the last `EOL` -/
def lastText (s : Bytes) : Bytes := s.drop (textOf (logicalLines s).flatten).length

/-- What stands behind the last `EOL` has no token. -/
def lastBlank (s : Bytes) : Bool :=
  tokensOf (splitLines (scan s)).2 = [] ∧ textOf (splitLines (scan s)).2 = lastText s

/-- The file with every line that has a syntax error replaced by as many blank lines. Where the last
`EOL` is followed by tokens, they make such a line too. -/
def blankInvalid (s : Bytes) : Bytes :=
  (logicalLines s).flatMap blankLine ++
    if lastBlank s then lastText s else List.replicate ((lastText s).count 10) 10

def eolPiece : Piece := ⟨[[10]], some .eol⟩

/-- The pieces of `blankLine` -/
def blankPieces (l : List Piece) : List Piece :=
  if valid l then l else List.replicate ((textOf l).count 10) eolPiece

/-- The pieces end with an `EOL` and have no other; none of them is made of nothing. -/
def IsLine (l : List Piece) : Prop :=
  ∃ b : List Piece, l = b ++ [eolPiece] ∧ ∀ p ∈ b, p.token ≠ some .eol ∧ p.texts ≠ []

theorem splitLines_flatten (ps : List Piece) :
    (splitLines ps).1.flatten ++ (splitLines ps).2 = ps := by
  induction ps with
  | nil => rfl
  | cons p ps ih =>
    rw [splitLines]
    split_ifs
    · simpa using ih
    · split <;> simp_all

theorem mem_splitLines (hps : ∀ p ∈ ps, (p.token = some .eol → p = eolPiece) ∧ p.texts ≠ []) :
    ∀ l ∈ (splitLines ps).1, IsLine l := by
  induction ps with
  | nil => simp [splitLines]
  | cons p ps ih =>
    have ih := ih fun q hq => hps q (mem_cons_of_mem _ hq)
    have hp' := hps p (by simp)
    rw [splitLines]
    split_ifs with hp
    · rintro l (_ | ⟨_, hl⟩)
      · exact ⟨[], by simp [hp'.1 hp], by simp⟩
      · exact ih l hl
    · split
      · simp
      · next l ls rest heq =>
        rw [heq] at ih
        rintro l' (_ | ⟨_, hl⟩)
        · obtain ⟨b, rfl, hb⟩ := ih l (by simp)
          exact ⟨p :: b, rfl, forall_mem_cons.2 ⟨⟨hp, hp'.2⟩, hb⟩⟩
        · exact ih l' (mem_cons_of_mem _ hl)

theorem eolPiece_of_next (h : next s = some (p, r)) (hp : p.token = some .eol) : p = eolPiece := by
  cases s with
  | nil => cases h
  | cons c s =>
    rw [next] at h
    split_ifs at h with _ heol
    all_goals try (cases h; cases hp; done)
    · cases h; rw [heol]; rfl
    · obtain ⟨⟨v, ts, r'⟩, _, he⟩ := Option.map_eq_some_iff.1 h
      cases he
      cases hp
    · rw [nextShort] at h
      split at h <;> cases h <;> cases hp

theorem Scans.pieces (h : Scans s ps r) :
    ∀ p ∈ ps, (p.token = some .eol → p = eolPiece) ∧ p.texts ≠ [] := by
  induction h with
  | nil => simp
  | cons hn _ ih =>
    refine forall_mem_cons.2 ⟨⟨eolPiece_of_next hn, fun h => next_text_ne hn ?_⟩, ih⟩
    rw [Piece.text, h]
    rfl

theorem isLine_of_mem {l : List Piece} (h : l ∈ logicalLines s) : IsLine l := by
  obtain ⟨r, hr⟩ := scans_scan s
  exact mem_splitLines hr.pieces l h

/-! ## Scanning the blanked file -/

/-- A line is scanned in the same way in front of another text that closes no more braces. -/
theorem Scans.congr_line {r' : Bytes} {b : List Piece} (h : Scans s (b ++ [eolPiece]) r)
    (hr : 125 ∈ r' → 125 ∈ r) :
    Scans (textOf (b ++ [eolPiece]) ++ r') (b ++ [eolPiece]) r' := by
  induction b generalizing s with
  | nil => exact .cons (next_eol r') (.nil r')
  | cons p b ih =>
    cases h with
    | cons hn h =>
      rw [h.text] at hn
      have hmem : (10 : UInt8) ∈ textOf (b ++ [eolPiece]) := by simp [eolPiece, Piece.text]
      have := next_congr hn hmem hr
      rw [cons_append, textOf_cons, append_assoc]
      exact .cons this (ih h)

theorem scans_blanks (n : Nat) (r : Bytes) :
    Scans (List.replicate n 10 ++ r) (List.replicate n eolPiece) r := by
  induction n with
  | zero => exact .nil r
  | succ n ih => exact .cons (next_eol _) ih

theorem mem_blankLine {l : List Piece} (h : 125 ∈ blankLine l) : 125 ∈ textOf l := by
  rw [blankLine] at h
  split_ifs at h
  · exact h
  · cases eq_of_mem_replicate h

/-- The blanked lines are scanned as blank lines. -/
theorem Scans.blank {ls : List (List Piece)} (hls : ∀ l ∈ ls, IsLine l) {r' : Bytes}
    (h : Scans s ls.flatten r) (hr : 125 ∈ r' → 125 ∈ r) :
    Scans (ls.flatMap blankLine ++ r') (ls.flatMap blankPieces) r' := by
  induction ls generalizing s with
  | nil => exact .nil r'
  | cons l ls ih =>
    obtain ⟨m, h₁, h₂⟩ : ∃ m, Scans s l m ∧ Scans m ls.flatten r := Scans.split h
    have ih := ih (fun l' hl' => hls l' (mem_cons_of_mem _ hl')) h₂
    have hm : 125 ∈ ls.flatMap blankLine ++ r' → 125 ∈ m := by
      rw [h₂.text]
      simp only [mem_append, mem_flatMap]
      rintro (⟨l', hl', hb⟩ | hb)
      · left
        have : 125 ∈ textOf l' := mem_blankLine hb
        simp only [textOf, mem_flatMap, mem_flatten] at this ⊢
        grind
      · exact .inr (hr hb)
    rw [flatMap_cons, flatMap_cons, append_assoc]
    refine Scans.append ?_ ih
    obtain ⟨b, rfl, _⟩ := hls l (by simp)
    rw [blankLine, blankPieces]
    split_ifs
    · exact h₁.congr_line hm
    · exact scans_blanks _ _

/-- The pieces of the blanked file: those of the blanked lines, and behind them some without a token
or blank lines. -/
theorem scan_blankInvalid (s : Bytes) :
    ∃ ps, Udev.scan (blankInvalid s) = (logicalLines s).flatMap blankPieces ++ ps ∧
      ∀ p ∈ ps, p.token = none ∨ p = eolPiece := by
  obtain ⟨r, hr⟩ := scans_scan s
  have hls : ∀ l ∈ logicalLines s, IsLine l := fun l => isLine_of_mem
  rw [← splitLines_flatten (scan s)] at hr
  obtain ⟨m, h₁, h₂⟩ := hr.split
  have hlast : lastText s = m := by
    rw [lastText, logicalLines]
    nth_rewrite 2 [h₁.text]
    simp
  rw [blankInvalid, hlast]
  split_ifs with hb
  · refine ⟨Udev.scan m, (h₁.blank hls id).scan, ?_⟩
    obtain ⟨htok, htext⟩ := of_decide_eq_true hb
    rw [hlast] at htext
    obtain rfl : r = [] := self_eq_append_right.1 (htext.trans h₂.text)
    rw [h₂.scan, scan_nil, append_nil]
    intro p hp
    left
    by_contra hne
    obtain ⟨t, ht⟩ := Option.ne_none_iff_exists'.1 hne
    have : t ∈ tokensOf (splitLines (scan s)).2 := mem_filterMap.2 ⟨p, hp, ht⟩
    rw [htok] at this
    cases this
  · have hmem : 125 ∈ replicate (m.count 10) (10 : UInt8) → 125 ∈ m := fun h =>
      absurd (eq_of_mem_replicate h) (by decide)
    refine ⟨replicate (m.count 10) eolPiece, ?_, fun p hp => .inr (eq_of_mem_replicate hp)⟩
    rw [(h₁.blank hls hmem).scan]
    have := (scans_blanks (m.count 10) []).scan
    simpa using this

end MakeInitrd.Udev
