import Mathlib.Data.Nat.Digits.Lemmas
import MakeInitrd.Lib.Span

/-!
# Numbers as C reads and prints them

`strtoul` is the conversion of the C library at an `unsigned long` of 64 bits, for the bases 10 and
16 (`strtoull` is the same function there): leading white space, one sign, the prefix `0x` in base
16, the digits, the value negated modulo `2 ^ 64` after a minus sign, and `ULONG_MAX` with `ERANGE`
on overflow. A string is the list of its character codes up to its terminating NUL or beyond it: NUL
is no digit.

`fmtX w v` is the conversion `%0<w>lX` of `printf`. `strtoul_plain` reads it back.
-/

namespace CNum

open List

/-- `ULONG_MAX + 1`. -/
def ulongSize : Nat := 2 ^ 64

/-- `isspace` in the C locale. -/
def isSpace (c : Nat) : Bool :=
  c == 32 || (9 ≤ c && c ≤ 13)

/-- The value of an alphanumeric character as a digit; 36 stands for no digit. -/
def digitVal (c : Nat) : Nat :=
  if 48 ≤ c && c ≤ 57 then c - 48
  else if 97 ≤ c && c ≤ 122 then c - 87
  else if 65 ≤ c && c ≤ 90 then c - 55
  else 36

/-- `c` is a digit of the base. -/
def isDigit (base c : Nat) : Bool :=
  digitVal c < base

/-- What a conversion reports: the value, the text `*endptr` points to, whether any digit was
found, and whether `errno` is `ERANGE`. -/
structure Conv where
  value : Nat
  rest : List Nat
  found : Bool
  erange : Bool
deriving DecidableEq

/-- Read an optional sign; the flag is set after a minus. -/
def stripSign : List Nat → Bool × List Nat
  | 43 :: s => (false, s)
  | 45 :: s => (true, s)
  | s => (false, s)

/-- Skip `0x` or `0X` in base 16, where a hexadecimal digit follows. -/
def stripHex (base : Nat) : List Nat → List Nat
  | 48 :: x :: c :: s =>
    if base == 16 && (x == 120 || x == 88) && isDigit 16 c then c :: s else 48 :: x :: c :: s
  | s => s

/-- The value of a list of digits, most significant first. -/
def digitsValue (base : Nat) (ds : List Nat) : Nat :=
  ds.foldl (fun acc c => acc * base + digitVal c) 0

/-- `strtoul(s, &end, base)` for `base` 10 or 16. -/
def strtoul (base : Nat) (s : List Nat) : Conv :=
  let (neg, t) := stripSign (s.dropWhile isSpace)
  let u := stripHex base t
  let ds := u.takeWhile (isDigit base)
  if ds.isEmpty then ⟨0, s, false, false⟩
  else
    let v := digitsValue base ds
    let rest := u.dropWhile (isDigit base)
    if ulongSize ≤ v then ⟨ulongSize - 1, rest, true, true⟩
    else ⟨if neg then (ulongSize - v) % ulongSize else v, rest, true, false⟩

def hexCode (d : Nat) : Nat :=
  if d < 10 then 48 + d else 55 + d

/-- `printf("%0<w>lX", v)`: upper case hexadecimal, padded with zeros to at least `w` digits. -/
def fmtX (w v : Nat) : List Nat :=
  let ds := (Nat.digits 16 v).reverse
  (List.replicate (w - ds.length) 0 ++ ds).map hexCode

theorem strtoul_value_lt (base : Nat) (s : List Nat) : (strtoul base s).value < ulongSize := by
  have hpos : 0 < ulongSize := by decide
  simp only [strtoul]
  split
  · exact hpos
  · split
    · exact Nat.sub_lt hpos (by decide)
    · next hlt =>
      show (if _ then _ else _) < ulongSize
      split
      · exact Nat.mod_lt _ hpos
      · exact Nat.lt_of_not_le hlt

/-! ## The round trip -/

theorem digitVal_hexCode {d : Nat} (h : d < 16) : digitVal (hexCode d) = d := by
  interval_cases d <;> rfl

/-- A hexadecimal digit is neither white space nor a sign nor the `x` of a prefix. -/
theorem ne_of_isDigit {c : Nat} (h : isDigit 16 c = true) :
    isSpace c = false ∧ c ≠ 43 ∧ c ≠ 45 ∧ c ≠ 120 ∧ c ≠ 88 := by
  simp only [isDigit, digitVal, Bool.and_eq_true, decide_eq_true_eq] at h
  simp only [isSpace, Bool.or_eq_false_iff, beq_eq_false_iff_ne, Bool.and_eq_false_iff,
    decide_eq_false_iff_not]
  split_ifs at h <;> omega

/-- Characters that all are hexadecimal digits, of either case. -/
def Plain (s : List Nat) : Prop :=
  ∀ c ∈ s, isDigit 16 c = true

theorem exists_of_mem_fmtX {w v c : Nat} (hc : c ∈ fmtX w v) : ∃ d, d < 16 ∧ c = hexCode d := by
  obtain ⟨d, hd, rfl⟩ := mem_map.1 hc
  refine ⟨d, ?_, rfl⟩
  rcases mem_append.1 hd with h | h
  · rw [eq_of_mem_replicate h]; decide
  · exact Nat.digits_lt_base (by decide) (mem_reverse.1 h)

theorem plain_fmtX (w v : Nat) : Plain (fmtX w v) := by
  intro c hc
  obtain ⟨d, hd, rfl⟩ := exists_of_mem_fmtX hc
  rw [isDigit, digitVal_hexCode hd]
  exact decide_eq_true hd

theorem length_fmtX {w v : Nat} (h : v < 16 ^ w) : (fmtX w v).length = w := by
  have hlen : (Nat.digits 16 v).length ≤ w := (Nat.digits_length_le_iff (by decide) v).2 h
  simp only [fmtX, length_map, length_append, length_replicate, length_reverse]
  omega

theorem digitsValue_map_hexCode : ∀ (l : List Nat), (∀ d ∈ l, d < 16) → ∀ acc,
    (l.map hexCode).foldl (fun acc c => acc * 16 + digitVal c) acc =
      l.foldl (fun acc d => acc * 16 + d) acc
  | [], _, _ => rfl
  | d :: l, h, acc => by
    rw [map_cons, foldl_cons, foldl_cons, digitVal_hexCode (h d (.head _))]
    exact digitsValue_map_hexCode l (fun x hx => h x (.tail _ hx)) _

theorem foldl_eq_ofDigits (l : List Nat) :
    l.reverse.foldl (fun acc d => acc * 16 + d) 0 = Nat.ofDigits 16 l := by
  induction l with
  | nil => rfl
  | cons d l ih =>
    rw [reverse_cons, foldl_append, ih]
    simp only [foldl_cons, foldl_nil, Nat.ofDigits_cons]
    omega

theorem digitsValue_fmtX (w v : Nat) : digitsValue 16 (fmtX w v) = v := by
  have hlt :
      ∀ d ∈ replicate (w - (Nat.digits 16 v).reverse.length) 0 ++
        (Nat.digits 16 v).reverse, d < 16 := by
    intro d hd
    rcases mem_append.1 hd with h | h
    · rw [eq_of_mem_replicate h]; decide
    · exact Nat.digits_lt_base (by decide) (mem_reverse.1 h)
  have hzero : ∀ n, (replicate n 0).foldl (fun acc d => acc * 16 + d) 0 = 0 := by
    intro n
    induction n with
    | zero => rfl
    | succ n ih => simpa [replicate_succ] using ih
  rw [digitsValue, fmtX, digitsValue_map_hexCode _ hlt, foldl_append, hzero, foldl_eq_ofDigits,
    Nat.ofDigits_digits]

theorem stripSign_plain {s : List Nat} (h : Plain s) :
    stripSign (s.dropWhile isSpace) = (false, s) := by
  cases s with
  | nil => rfl
  | cons c s =>
    obtain ⟨hsp, hp, hm, -⟩ := ne_of_isDigit (h c (.head _))
    rw [dropWhile_cons_of_neg (by simp [hsp])]
    unfold stripSign
    split
    · next heq => exact absurd (cons.inj heq).1 hp
    · next heq => exact absurd (cons.inj heq).1 hm
    · rfl

theorem stripHex_plain {s : List Nat} (h : Plain s) (base : Nat) : stripHex base s = s := by
  unfold stripHex
  split
  · next x c s =>
    obtain ⟨-, -, -, hx, hX⟩ := ne_of_isDigit (h x (.tail _ (.head _)))
    simp [hx, hX]
  · rfl

/-- A text of hexadecimal digits is read as the number of the digits. -/
theorem strtoul_plain {s : List Nat} (h : Plain s) (hne : s ≠ [])
    (hv : digitsValue 16 s < ulongSize) :
    strtoul 16 s = ⟨digitsValue 16 s, [], true, false⟩ := by
  have htake : s.takeWhile (isDigit 16) = s := takeWhile_eq_self_iff.2 h
  have hdrop : s.dropWhile (isDigit 16) = [] := dropWhile_eq_nil_iff.2 h
  have hempty : s.isEmpty = false := by simpa using hne
  simp only [strtoul, stripSign_plain h, stripHex_plain h, htake, hdrop, hempty,
    Bool.false_eq_true, if_false, if_neg (Nat.not_le.2 hv)]

/-- A text of decimal digits and something else after it is read as the number of the digits. -/
theorem strtoul_decimal {ds t : List Nat} {x : Nat} (hne : ds ≠ [])
    (hds : ∀ c ∈ ds, 48 ≤ c ∧ c ≤ 57)
    (hx : isDigit 10 x = false) (hv : digitsValue 10 ds < ulongSize) :
    strtoul 10 (ds ++ x :: t) = ⟨digitsValue 10 ds, x :: t, true, false⟩ := by
  have hdigit : ∀ c ∈ ds, isDigit 10 c = true := by
    intro c hc
    obtain ⟨hlo, hhi⟩ := hds c hc
    simp only [isDigit, digitVal, decide_eq_true hlo, decide_eq_true hhi, Bool.and_self, if_true,
      decide_eq_true_eq]
    omega
  have hsign : stripSign ((ds ++ x :: t).dropWhile isSpace) = (false, ds ++ x :: t) := by
    obtain ⟨d, ds, rfl⟩ := exists_cons_of_ne_nil hne
    obtain ⟨hlo, hhi⟩ := hds d mem_cons_self
    have hspace : isSpace d = false := by
      simp only [isSpace, Bool.or_eq_false_iff, beq_eq_false_iff_ne, Bool.and_eq_false_iff,
        decide_eq_false_iff_not]
      omega
    rw [cons_append, dropWhile_cons_of_neg (by simp [hspace])]
    unfold stripSign
    split
    · next heq => exact absurd (cons.inj heq).1 (by omega)
    · next heq => exact absurd (cons.inj heq).1 (by omega)
    · rfl
  have hhex : stripHex 10 (ds ++ x :: t) = ds ++ x :: t := by
    unfold stripHex
    split <;> simp_all
  have hempty : ds.isEmpty = false := by simpa using hne
  simp only [strtoul, hsign, hhex, Span.takeWhile_stop hdigit hx,
    Span.dropWhile_stop hdigit hx, hempty,
    Bool.false_eq_true, if_false, if_neg (Nat.not_le.2 hv)]

end CNum
