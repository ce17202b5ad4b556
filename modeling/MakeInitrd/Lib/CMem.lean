import MakeInitrd.Lib.CNum

/-!
# Memory as C programs read it

A buffer is an object of C: bytes, at most `PTRDIFF_MAX` of them. A pointer is a buffer and a
position modulo `2 ^ 64`, since that is how addresses add. Reading through a pointer is partial:
`none` stands for a read that leaves the buffer, where C gives the program no meaning. `Ptr.rest` is
the bytes of the buffer from the position on.
-/

namespace CMem

open CNum List

abbrev Bytes := List UInt8

instance : LawfulBEq Bytes := inferInstance

/-- `PTRDIFF_MAX`, the most bytes an object can have. -/
def objectMax : Nat := 2 ^ 63 - 1

/-- An object in memory. -/
abbrev Buffer := { bs : Bytes // bs.length ≤ objectMax }

/-- A pointer into an object. -/
structure Ptr where
  mem : Buffer
  off : Nat
deriving DecidableEq

namespace Ptr

/-- The bytes from the pointer to the end of its object. -/
def rest (p : Ptr) : Bytes :=
  p.mem.1.drop p.off

/-- `p + n`. -/
def add (p : Ptr) (n : Nat) : Ptr where
  mem := p.mem
  off := (p.off + n) % ulongSize

/-- `p - n`, round the address space below the start of the object. -/
def sub (p : Ptr) (n : Nat) : Ptr where
  mem := p.mem
  off := if n ≤ p.off then p.off - n else p.off + ulongSize - n

/-- `(unsigned long) (p - q)`, for pointers into one object. -/
def diff (p q : Ptr) : Nat :=
  if q.off ≤ p.off then p.off - q.off else p.off + ulongSize - q.off

/-- The `n` bytes `memcpy`, `memcmp` or `fwrite` read at the pointer. -/
def bytes? (p : Ptr) (n : Nat) : Option Bytes :=
  if n = 0 ∨ p.off + n ≤ p.mem.1.length then some (p.rest.take n) else none

/-- The C string at the pointer, without its NUL. -/
def cstr? (p : Ptr) : Option Bytes :=
  if 0 ∈ p.rest then some (p.rest.takeWhile (· ≠ 0)) else none

variable {p : Ptr} {n : Nat} {s t : Bytes}

theorem length_rest (p : Ptr) : p.rest.length = p.mem.1.length - p.off :=
  length_drop

theorem length_rest_le (p : Ptr) : p.rest.length ≤ objectMax := by
  rw [p.length_rest]
  exact (Nat.sub_le _ _).trans p.mem.2

theorem length_rest_lt (p : Ptr) : p.rest.length < ulongSize :=
  Nat.lt_of_le_of_lt p.length_rest_le (by decide)

theorem add_mk {mem : Buffer} {k : Nat} (h : k + n ≤ mem.1.length) :
    (Ptr.mk mem k).add n = ⟨mem, k + n⟩ :=
  congrArg (Ptr.mk mem) (Nat.mod_eq_of_lt (Nat.lt_of_le_of_lt (h.trans mem.2) (by decide)))

theorem sub_mk {mem : Buffer} {k : Nat} (h : n ≤ k) : (Ptr.mk mem k).sub n = ⟨mem, k - n⟩ :=
  congrArg (Ptr.mk mem) (if_pos h)

theorem diff_mk (mem : Buffer) (k : Nat) : (Ptr.mk mem k).diff ⟨mem, 0⟩ = k :=
  if_pos (Nat.zero_le k)

theorem rest_add (h : n ≤ p.rest.length) (hp : p.rest ≠ []) : (p.add n).rest = p.rest.drop n := by
  have hlen := p.length_rest
  have hpos := length_pos_iff.2 hp
  have hmax := p.mem.2
  have hlt : p.off + n < ulongSize := by
    simp only [objectMax, ulongSize] at *
    omega
  rw [rest, add, Nat.mod_eq_of_lt hlt, rest, drop_drop]

theorem rest_add_drop {l : Bytes} {k : Nat} (hp : p.rest = l.drop k) (hk : k < l.length)
    (h : k + n ≤ l.length) : (p.add n).rest = l.drop (k + n) := by
  have hlen : p.rest.length = l.length - k := by rw [hp, length_drop]
  rw [rest_add (by omega) (ne_nil_of_length_pos (by omega)), hp, drop_drop]

theorem rest_add_length (h : p.rest = s ++ t) (hs : s ≠ []) : (p.add s.length).rest = t := by
  have hle : s.length ≤ p.rest.length := by
    rw [h, length_append]
    omega
  rw [rest_add hle (by simp [h, hs]), h, drop_left]

theorem bytes?_of_le (h : n ≤ p.rest.length) : p.bytes? n = some (p.rest.take n) := by
  rw [p.length_rest] at h
  exact if_pos (by omega)

theorem bytes?_of_rest (h : p.rest = s ++ t) : p.bytes? s.length = some s := by
  have hle : s.length ≤ p.rest.length := by
    rw [h, length_append]
    omega
  rw [bytes?_of_le hle, h, take_left]

theorem bytes?_inv (h : p.bytes? n = some s) : s.length = n ∧ ∃ t, p.rest = s ++ t := by
  unfold bytes? at h
  split at h
  · next hn =>
    cases h
    refine ⟨?_, p.rest.drop n, (take_append_drop n _).symm⟩
    rw [length_take, p.length_rest]
    omega
  · cases h

theorem exists_takeWhile_append : ∀ {l : Bytes}, 0 ∈ l → ∃ t, l = l.takeWhile (· ≠ 0) ++ 0 :: t
  | a :: l, h => by
    by_cases ha : a = 0
    · exact ⟨l, by simp [ha]⟩
    · obtain ⟨t, ht⟩ := exists_takeWhile_append ((mem_cons.1 h).resolve_left (Ne.symm ha))
      refine ⟨t, ?_⟩
      rw [takeWhile_cons_of_pos (by simpa using ha), cons_append, ← ht]

theorem cstr?_eq_some : p.cstr? = some s ↔ 0 ∉ s ∧ ∃ t, p.rest = s ++ 0 :: t := by
  unfold cstr?
  constructor
  · intro h
    split at h
    · next hmem =>
      cases h
      refine ⟨fun hz => ?_, exists_takeWhile_append hmem⟩
      simpa using mem_takeWhile_imp hz
    · cases h
  · rintro ⟨hz, t, ht⟩
    have hs : ∀ x ∈ s, decide (x ≠ 0) = true := fun x hx =>
      decide_eq_true fun h0 => hz (h0 ▸ hx)
    rw [if_pos (by simp [ht]), ht, takeWhile_append_of_pos hs]
    simp

end Ptr

/-! ## Alignment -/

/-- How often `while (n % m) n++` goes round. -/
def padLen (m n : Nat) : Nat :=
  (m - n % m) % m

theorem padLen_mod {m k : Nat} (h : m ∣ k) (n : Nat) : padLen m (n % k) = padLen m n := by
  rw [padLen, padLen, Nat.mod_mod_of_dvd n h]

theorem padLen_add {m o : Nat} (h : m ∣ o) (n : Nat) : padLen m (o + n) = padLen m n := by
  obtain ⟨k, rfl⟩ := h
  rw [padLen, padLen, Nat.mul_add_mod]

theorem dvd_add_padLen {m : Nat} (hm : 0 < m) (n : Nat) : m ∣ n + padLen m n := by
  have hlt := Nat.mod_lt n hm
  have hsum : n + (m - n % m) = m * (n / m + 1) := by
    have hdiv := Nat.div_add_mod n m
    rw [Nat.mul_succ]
    omega
  rw [Nat.dvd_iff_mod_eq_zero, padLen, Nat.add_mod_mod, hsum, Nat.mul_mod_right]

/-- Bytes written by `fputc(0)`. -/
abbrev zeros (n : Nat) : Bytes :=
  List.replicate n 0

/-! ## Text -/

def codes (bs : Bytes) : List Nat :=
  bs.map UInt8.toNat

def ascii (cs : List Nat) : Bytes :=
  cs.map UInt8.ofNat

theorem codes_ascii {cs : List Nat} (h : ∀ c ∈ cs, c < 256) : codes (ascii cs) = cs := by
  rw [codes, ascii, map_map]
  calc cs.map (UInt8.toNat ∘ UInt8.ofNat)
      = cs.map id := map_congr_left fun c hc => UInt8.toNat_ofNat_of_lt' (h c hc)
    _ = cs := map_id cs

theorem take_drop_flatten {α : Type*} {w : Nat} : ∀ {l : List (List α)}
    (_ : ∀ x ∈ l, x.length = w) (i : Nat) (hi : i < l.length),
      (l.flatten.drop (w * i)).take w = l[i]
  | x :: l, hl, 0, _ => by
    rw [Nat.mul_zero, drop_zero, flatten_cons, ← hl x (.head _), take_left]
    rfl
  | x :: l, hl, i + 1, hi => by
    have hdrop : (x :: l).flatten.drop (w * (i + 1)) = l.flatten.drop (w * i) := by
      rw [flatten_cons, Nat.mul_succ, Nat.add_comm, ← drop_drop, ← hl x (.head _), drop_left]
    rw [hdrop]
    exact take_drop_flatten (fun y hy => hl y (.tail _ hy)) i (Nat.lt_of_succ_lt_succ hi)

end CMem
