import MakeInitrd.Lib.CMem

/-!
# Words of a text

The words of a text are separated by blanks, tabs and newlines (`Words.words`); a list of them is
sorted and freed of repetitions as `sort -u` does (`Words.sortUniq`).
-/

namespace Words

open CMem List

def text (s : String) : Bytes := s.toList.map fun c => UInt8.ofNat c.toNat

/-- A byte of the default `IFS` -/
def isBlank (c : UInt8) : Bool := c = 32 ∨ c = 9 ∨ c = 10

def words (s : Bytes) : List Bytes := (s.splitOnP isBlank).filter (· ≠ [])

/-- Lines, each with its newline -/
def unlines (ls : List Bytes) : Bytes := ls.flatMap (· ++ [10])

/-- Sorted by their bytes, each once -/
def sortUniq (ws : List Bytes) : List Bytes := (ws.insertionSort fun a b => !b.lex a).dedup

@[simp] theorem mem_sortUniq {ws : List Bytes} {w : Bytes} : w ∈ sortUniq ws ↔ w ∈ ws := by
  simp [sortUniq]

theorem splitOnP_map {f : UInt8 → UInt8} (hf : ∀ c, isBlank (f c) = isBlank c) (s : Bytes) :
    (s.map f).splitOnP isBlank = (s.splitOnP isBlank).map (List.map f) := by
  induction s with
  | nil => rfl
  | cons c s ih =>
    rw [map_cons, splitOnP_cons_eq_if_modifyHead, splitOnP_cons_eq_if_modifyHead, hf, ih]
    split_ifs
    · rfl
    · cases s.splitOnP isBlank <;> rfl

theorem words_map {f : UInt8 → UInt8} (hf : ∀ c, isBlank (f c) = isBlank c) (s : Bytes) :
    words (s.map f) = (words s).map (List.map f) := by
  rw [words, splitOnP_map hf, words, filter_map]
  congr 1
  refine filter_congr fun w _ => ?_
  simp

theorem not_of_mem_splitOnP {p : UInt8 → Bool} {s w : Bytes} (h : w ∈ s.splitOnP p) :
    ∀ c ∈ w, p c = false := by
  induction s generalizing w with
  | nil =>
    obtain rfl : w = [] := by simpa using h
    simp
  | cons d s ih =>
    rw [splitOnP_cons_eq_if_modifyHead] at h
    split_ifs at h with hd
    · rcases mem_cons.1 h with rfl | h
      · simp
      · exact ih h
    · cases hs : s.splitOnP p with
      | nil => exact absurd hs (splitOnP_ne_nil p s)
      | cons v vs =>
        rw [hs] at h ih
        rcases mem_cons.1 h with rfl | h
        · intro c hc
          rcases mem_cons.1 hc with rfl | hc
          · exact Bool.eq_false_iff.2 hd
          · exact ih mem_cons_self c hc
        · exact ih (mem_cons_of_mem _ h)

theorem not_isBlank_of_mem_words {s w : Bytes} (h : w ∈ words s) : ∀ c ∈ w, isBlank c = false :=
  not_of_mem_splitOnP (mem_of_mem_filter h)

theorem not_isBlank_of_all {s : Bytes} (h : s.all (fun c => !isBlank c) = true) :
    ∀ c ∈ s, isBlank c = false := by
  intro c hc
  simpa using all_eq_true.1 h c hc

theorem words_append_cons (a : Bytes) {b : UInt8} (hb : isBlank b = true) (s : Bytes) :
    words (a ++ b :: s) = words a ++ words s := by
  rw [words, splitOnP_append_cons a s hb, filter_append]
  rfl

theorem words_eq_singleton {w : Bytes} (hw : ∀ c ∈ w, isBlank c = false) (hne : w ≠ []) :
    words w = [w] := by
  rw [words, splitOnP_eq_singleton hw]
  simpa using hne

theorem words_append {w : Bytes} (hw : ∀ c ∈ w, isBlank c = false) (hne : w ≠ []) {b : UInt8}
    (hb : isBlank b = true) (s : Bytes) : words (w ++ b :: s) = w :: words s := by
  rw [words_append_cons w hb, words_eq_singleton hw hne]
  rfl

theorem exists_words_cons {c : UInt8} (hc : isBlank c = false) (s : Bytes) :
    ∃ w ws, words (c :: s) = (c :: w) :: ws := by
  rw [words, splitOnP_cons_eq_if_modifyHead, if_neg (by simp [hc])]
  cases hs : s.splitOnP isBlank with
  | nil => exact absurd hs (splitOnP_ne_nil _ s)
  | cons v vs => exact ⟨v, vs.filter (· ≠ []), by simp⟩

theorem words_replicate (n : Nat) : words (List.replicate n 32) = [] := by
  induction n with
  | zero => rfl
  | succ n ih => exact (words_append_cons [] rfl _).trans ih

theorem words_unlines (ls : List Bytes) : words (unlines ls) = ls.flatMap words := by
  induction ls with
  | nil => rfl
  | cons l ls ih =>
    rw [flatMap_cons, ← ih, ← words_append_cons l (rfl : isBlank 10 = true)]
    simp [unlines]

end Words

/-! ## Decimal numbers

How a number is printed (`Decimal.digits`), and the value of a text of digits (`Decimal.value`). -/

namespace Decimal

open CMem

def isDigit (c : UInt8) : Bool := 48 ≤ c && c ≤ 57

def digits (n : Nat) : Bytes := (Nat.toDigits 10 n).map fun c => UInt8.ofNat c.toNat

def value (s : Bytes) : Nat := s.foldl (fun n c => 10 * n + (c.toNat - 48)) 0

variable {n : Nat}

theorem digits_ne_nil : digits n ≠ [] := by simp [digits, Nat.toDigits_ne_nil]

theorem toNat_ofNat_of_isDigit {c : Char} (hc : c.isDigit = true) :
    (UInt8.ofNat c.toNat).toNat = c.toNat ∧ 48 ≤ c.toNat ∧ c.toNat ≤ 57 := by
  simp only [Char.isDigit, Bool.and_eq_true, decide_eq_true_eq, ge_iff_le] at hc
  have hlow : 48 ≤ c.toNat := hc.1
  have hhigh : c.toNat ≤ 57 := hc.2
  exact ⟨UInt8.toNat_ofNat_of_lt' (by simp only [UInt8.size]; omega), hlow, hhigh⟩

theorem isDigit_of_mem_toDigits {c : Char} (h : c ∈ Nat.toDigits 10 n) : c.isDigit = true :=
  Nat.isDigit_of_mem_toDigits (by decide) (by decide) h

theorem isDigit_of_mem_digits {c : UInt8} (h : c ∈ digits n) : isDigit c = true := by
  obtain ⟨d, hd, rfl⟩ := List.mem_map.1 h
  obtain ⟨hval, hlow, hhigh⟩ := toNat_ofNat_of_isDigit (isDigit_of_mem_toDigits hd)
  simp only [isDigit, Bool.and_eq_true, decide_eq_true_eq, UInt8.le_iff_toNat_le, hval]
  exact ⟨hlow, hhigh⟩

end Decimal
