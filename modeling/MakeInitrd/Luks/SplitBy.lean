import MakeInitrd.Lib.Glob
import MakeInitrd.Lib.Words

/-!
# Splitting the fields of crypttab

`shell_split_by` goes through a text by the character and calls a handler with each part between two
separators. A backslash takes the meaning from the character behind it. The loop finds the next
character by cutting the rest off with a mask of question marks, which `fill_mask` of libshell
makes; libshell is not part of the sources, so `fill_mask` is a parameter, and `IsMask` is what is
taken to hold of it.

The result of the model is the list of the arguments of the calls. `scan` is the loop without the
masks.
-/

namespace MakeInitrd.Luks

open CMem

/-- The mask of a text has a question mark for each character but one. -/
def IsMask (fillMask : Bytes → Bytes) : Prop := ∀ l, fillMask l = List.replicate (l.length - 1) 63

/-- The variables of the loop of `shell_split_by`, and the calls so far. -/
structure Split where
  arg : Bytes
  quote : Bool
  count : Int
  calls : List Bytes

/-- `case "$c" in … esac` -/
def Split.case (s : Bytes) (st : Split) (c : Bytes) : Split :=
  if c = [92] then
    if st.quote then { st with arg := st.arg ++ c, quote := false }
    else { st with quote := true }
  else if c = s then
    if !st.quote then
      if st.count ≠ 0 then
        { st with arg := [], count := st.count - 1, calls := st.calls ++ [st.arg] }
      else st
    else { st with arg := st.arg ++ c }
  else { st with arg := st.arg ++ c, quote := false }

/-- `while [ -n "$l" ]; do … done`; `${l#?}` is the tail of `l`. -/
def splitLoop (s : Bytes) : Bytes → Bytes → Split → Split
  | [], _, st => st
  | c :: l, m, st => splitLoop s l m.tail (st.case s (Glob.percent (Glob.parse m) (c :: l)))

/-- `shell_split_by "$l" "$s" handler [count]` -/
def shellSplitBy (fillMask : Bytes → Bytes) (l s : Bytes) (count : Option Int) : List Bytes :=
  let st := splitLoop s l (fillMask l) ⟨[], false, count.getD (-1), []⟩
  if st.arg ≠ [] then st.calls ++ [st.arg] else st.calls

/-- The calls for the characters `l`. -/
def scan (sep : UInt8) : Bytes → Bytes → Bool → Int → List Bytes
  | [], arg, _, _ => if arg ≠ [] then [arg] else []
  | c :: l, arg, quote, count =>
    if c = 92 then if quote then scan sep l (arg ++ [c]) false count else scan sep l arg true count
    else if c = sep then
      if quote then scan sep l (arg ++ [c]) true count
      else if count ≠ 0 then arg :: scan sep l [] false (count - 1)
      else scan sep l arg false count
    else scan sep l (arg ++ [c]) false count

variable {fillMask : Bytes → Bytes} {sep c : UInt8} {l t arg : Bytes} {quote : Bool} {count : Int}

theorem splitLoop_eq_scan (st : Split) :
    let st' := splitLoop [sep] l (List.replicate (l.length - 1) 63) st
    (if st'.arg ≠ [] then st'.calls ++ [st'.arg] else st'.calls) = st.calls ++
      scan sep l st.arg st.quote st.count := by
  induction l generalizing st with
  | nil => by_cases harg : st.arg = [] <;> simp [splitLoop, scan, harg]
  | cons c l ih =>
    have htail : (List.replicate l.length (63 : UInt8)).tail = List.replicate (l.length - 1) 63 :=
      List.tail_replicate ..
    have hc : Glob.percent (Glob.parse (List.replicate l.length 63)) (c :: l) = [c] := by
      rw [Glob.parse_anys]
      exact Glob.percent_anys [c] l
    intro st'
    simp only [st', List.length_cons, Nat.add_sub_cancel, splitLoop, htail, hc, ih,
      Split.case, scan, List.cons.injEq, and_true]
    split_ifs <;> simp_all

theorem shellSplitBy_eq_scan (hmask : IsMask fillMask) (l : Bytes) (sep : UInt8)
    (count : Option Int) :
    shellSplitBy fillMask l [sep] count = scan sep l [] false (count.getD (-1)) := by
  rw [shellSplitBy, hmask l]
  exact splitLoop_eq_scan _

theorem scan_starts (sep : UInt8) (l : Bytes) (harg : arg ≠ []) (quote : Bool) (count : Int) :
    ∃ x xs, scan sep l arg quote count = x :: xs ∧ arg <+: x := by
  induction l generalizing arg quote with
  | nil => exact ⟨arg, [], by simp [scan, harg], List.prefix_rfl⟩
  | cons c l ih =>
    have hmore (quote : Bool) :
        ∃ x xs, scan sep l (arg ++ [c]) quote count = x :: xs ∧ arg <+: x := by
      have hne : arg ++ [c] ≠ [] := by simp
      obtain ⟨x, xs, heq, hx⟩ := ih hne quote
      exact ⟨x, xs, heq, (List.prefix_append arg [c]).trans hx⟩
    rw [scan]
    split_ifs
    · exact hmore false
    · exact ih harg true
    · exact hmore true
    · exact ⟨arg, _, rfl, List.prefix_rfl⟩
    · exact ih harg false
    · exact hmore false

end MakeInitrd.Luks
