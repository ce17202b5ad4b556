import MakeInitrd.Lib.CMem

/-!
# Shell patterns

The patterns of the shell (`Glob.parse`, `Glob.isMatch`) and the expansions that cut a matching part
off the front or the back of a value: `${x#p}`, `${x##p}`, `${x%p}` and `${x%%p}`. Bytes are
compared as in the C locale; a bracket knows single bytes, ranges and negation, and no named
classes.
-/

namespace Glob

open CMem Span List

inductive Item where
  | star
  | any
  | set (neg : Bool) (ranges : List (UInt8 × UInt8))
  | lit (c : UInt8)
deriving DecidableEq, Repr

/-! ## Patterns -/

/-- The byte is one that the item stands for. -/
def Item.accepts : Item → UInt8 → Bool
  | .star, _ => false
  | .any, _ => true
  | .set neg ranges, c => neg != ranges.any fun r => r.1 ≤ c ∧ c ≤ r.2
  | .lit d, c => c = d

def isMatch : List Item → Bytes → Bool
  | [], s => s.isEmpty
  | .star :: p, s => s.tails.any fun t => isMatch p t
  | _ :: _, [] => false
  | i :: p, c :: s => i.accepts c && isMatch p s

/-- The items of a bracket up to the one that closes it, and what follows -/
def ranges : Bytes → Option (List (UInt8 × UInt8) × Bytes)
  | [] => none
  | 93 :: s => some ([], s)
  | 92 :: c :: 45 :: 92 :: d :: s => (ranges s).map fun r => ((c, d) :: r.1, r.2)
  | 92 :: c :: 45 :: d :: s =>
    if d = 93 then some ([(c, c), (45, 45)], s) else (ranges s).map fun r => ((c, d) :: r.1, r.2)
  | 92 :: c :: s => (ranges s).map fun r => ((c, c) :: r.1, r.2)
  | c :: 45 :: 92 :: d :: s => (ranges s).map fun r => ((c, d) :: r.1, r.2)
  | c :: 45 :: d :: s =>
    if d = 93 then some ([(c, c), (45, 45)], s) else (ranges s).map fun r => ((c, d) :: r.1, r.2)
  | c :: s => (ranges s).map fun r => ((c, c) :: r.1, r.2)

/-- What follows the opening bracket of a set; a closing one stands for itself in the first place.
-/
def bracket (neg : Bool) : Bytes → Option (Item × Bytes)
  | 93 :: s => (ranges s).map fun r => (.set neg ((93, 93) :: r.1), r.2)
  | s => (ranges s).map fun r => (.set neg r.1, r.2)

def set : Bytes → Option (Item × Bytes)
  | 33 :: s | 94 :: s => bracket true s
  | s => bracket false s

/-- The items of a pattern of at most `k` bytes; a bracket that nothing closes stands for itself. -/
def parseFrom : Nat → Bytes → List Item
  | 0, _ | _, [] => []
  | k + 1, 42 :: s => .star :: parseFrom k s
  | k + 1, 63 :: s => .any :: parseFrom k s
  | k + 1, 92 :: c :: s => .lit c :: parseFrom k s
  | k + 1, 91 :: s =>
    match set s with
    | some r => r.1 :: parseFrom k r.2
    | none => .lit 91 :: parseFrom k s
  | k + 1, c :: s => .lit c :: parseFrom k s

def parse (s : Bytes) : List Item := parseFrom s.length s

/-- The longest first part of `s` that matches is cut off: `${s##p}`. -/
def hashHash (p : List Item) (s : Bytes) : Bytes :=
  match (List.range (s.length + 1)).reverse.find? fun k => isMatch p (s.take k) with
  | some k => s.drop k
  | none => s

/-- The shortest first part: `${s#p}` -/
def hash (p : List Item) (s : Bytes) : Bytes :=
  match (List.range (s.length + 1)).find? fun k => isMatch p (s.take k) with
  | some k => s.drop k
  | none => s

/-- The longest last part: `${s%%p}` -/
def percentPercent (p : List Item) (s : Bytes) : Bytes :=
  match (List.range (s.length + 1)).find? fun k => isMatch p (s.drop k) with
  | some k => s.take k
  | none => s

/-- The shortest last part: `${s%p}` -/
def percent (p : List Item) (s : Bytes) : Bytes :=
  match (List.range (s.length + 1)).reverse.find? fun k => isMatch p (s.drop k) with
  | some k => s.take k
  | none => s

/-! ## What matches -/

@[simp] theorem isMatch_nil (s : Bytes) : isMatch [] s = true ↔ s = [] := by
  rw [isMatch, List.isEmpty_iff]

theorem isMatch_star (p : List Item) (s : Bytes) :
    isMatch (.star :: p) s = true ↔ ∃ a t, s = a ++ t ∧ isMatch p t = true := by
  rw [isMatch, any_eq_true]
  simp only [mem_tails]
  constructor
  · rintro ⟨t, ⟨a, rfl⟩, ht⟩
    exact ⟨a, t, rfl, ht⟩
  · rintro ⟨a, t, rfl, ht⟩
    exact ⟨t, suffix_append a t, ht⟩

theorem isMatch_lit (c : UInt8) (p : List Item) (s : Bytes) :
    isMatch (.lit c :: p) s = true ↔ ∃ t, s = c :: t ∧ isMatch p t = true := by
  cases s with
  | nil => simp [isMatch]
  | cons d s => simp [isMatch, Item.accepts, and_comm]

theorem isMatch_lits (n : Bytes) (p : List Item) (s : Bytes) :
    isMatch (n.map .lit ++ p) s = true ↔ ∃ t, s = n ++ t ∧ isMatch p t = true := by
  induction n generalizing s with
  | nil => simp
  | cons c n ih =>
    rw [map_cons, cons_append, isMatch_lit]
    constructor
    · rintro ⟨t, rfl, ht⟩
      obtain ⟨u, rfl, hu⟩ := (ih t).1 ht
      exact ⟨u, rfl, hu⟩
    · rintro ⟨t, rfl, ht⟩
      exact ⟨n ++ t, rfl, (ih _).2 ⟨t, rfl, ht⟩⟩

/-- A byte that stands for itself in a pattern -/
def isPlain (c : UInt8) : Bool := c ≠ 42 ∧ c ≠ 63 ∧ c ≠ 91 ∧ c ≠ 92

theorem parse_cons {c : UInt8} (hc : isPlain c = true) (s : Bytes) :
    parse (c :: s) = .lit c :: parse s := by
  obtain ⟨h42, h63, h91, h92⟩ : c ≠ 42 ∧ c ≠ 63 ∧ c ≠ 91 ∧ c ≠ 92 := by simpa [isPlain] using hc
  rw [parse, length_cons, parseFrom.eq_def]
  split <;> simp_all [parse]

theorem parse_plain {n : Bytes} (hn : ∀ c ∈ n, isPlain c = true) (s : Bytes) :
    parse (n ++ s) = n.map .lit ++ parse s := by
  induction n with
  | nil => rfl
  | cons c n ih =>
    rw [cons_append, parse_cons (hn c (by simp)), ih fun d hd => hn d (mem_cons_of_mem _ hd)]
    rfl

/-! ## What is cut off -/

section
variable (p : List Item) (s : Bytes)

/-- The places to cut a text are tried in an order `r`: the first one that will do comes before all
others that would. -/
theorem cut_spec (f : Bytes → Bytes → Bool) {ks : List Nat} {r : Nat → Nat → Prop}
    (hks : ∀ k, k ∈ ks ↔ k ∈ range (s.length + 1)) (hr : ks.Pairwise r) (hrefl : ∀ k, r k k) :
    ((ks.find? fun k => f (s.take k) (s.drop k)) = none ∧ ∀ a b, s = a ++ b → f a b = false) ∨
      ∃ a b, s = a ++ b ∧ f a b = true ∧ (ks.find? fun k => f (s.take k) (s.drop k)) =
        some a.length ∧
        ∀ a' b', s = a' ++ b' → f a' b' = true → r a.length a'.length := by
  cases h : ks.find? fun k => f (s.take k) (s.drop k) with
  | none =>
    refine .inl ⟨rfl, ?_⟩
    rintro a b rfl
    simpa using find?_eq_none.1 h a.length ((hks _).2 (by simp))
  | some k =>
    obtain ⟨hk, pre, post, rfl, hpre⟩ := find?_eq_some_iff_append.1 h
    have hlen : (s.take k).length = k :=
      length_take_of_le (Nat.lt_succ_iff.1 (mem_range.1 ((hks k).1 (by simp))))
    refine .inr ⟨s.take k, s.drop k, (take_append_drop k s).symm, hk, by rw [hlen], ?_⟩
    rintro a b rfl hab
    rw [hlen]
    rcases mem_append.1 ((hks a.length).2 (by simp)) with ha | ha
    · simpa [hab] using hpre _ ha
    · rcases mem_cons.1 ha with ha | ha
      · rw [ha]
        exact hrefl k
      · exact (pairwise_cons.1 (pairwise_append.1 hr).2.1).1 _ ha

theorem hashHash_spec : ((∀ a b, s = a ++ b → isMatch p a = false) ∧ hashHash p s = s) ∨
      ∃ a b, s = a ++ b ∧ isMatch p a = true ∧ hashHash p s = b ∧
        ∀ a' b', s = a' ++ b' → isMatch p a' = true → a'.length ≤ a.length := by
  rw [hashHash]
  rcases cut_spec s (fun a _ => isMatch p a) (fun _ => mem_reverse)
    (pairwise_reverse.2 pairwise_le_range) Nat.le_refl with
    ⟨h, hno⟩ | ⟨a, b, rfl, hab, h, hmax⟩ <;> rw [h]
  · exact .inl ⟨hno, rfl⟩
  · exact .inr ⟨a, b, rfl, hab, drop_left, hmax⟩

theorem hashHash_eq_nil {s : Bytes} (hs : s ≠ []) : hashHash p s = [] ↔ isMatch p s = true := by
  rcases hashHash_spec p s with ⟨hno, heq⟩ | ⟨a, b, hab, hmatch, heq, hmax⟩
  · rw [heq, hno s [] (by simp)]
    simp [hs]
  · rw [heq]
    constructor
    · rintro rfl
      rw [hab, append_nil]
      exact hmatch
    · intro hs
      have := hmax s [] (by simp) hs
      rw [hab, length_append] at this
      exact length_eq_zero_iff.1 (by omega)

theorem hash_spec : ((∀ a b, s = a ++ b → isMatch p a = false) ∧ hash p s = s) ∨
      ∃ a b, s = a ++ b ∧ isMatch p a = true ∧ hash p s = b ∧
        ∀ a' b', s = a' ++ b' → isMatch p a' = true → a.length ≤ a'.length := by
  rw [hash]
  rcases cut_spec s (fun a _ => isMatch p a) (fun _ => .rfl) pairwise_le_range Nat.le_refl with
    ⟨h, hno⟩ | ⟨a, b, rfl, hab, h, hmin⟩ <;> rw [h]
  · exact .inl ⟨hno, rfl⟩
  · exact .inr ⟨a, b, rfl, hab, drop_left, hmin⟩

theorem percentPercent_spec : ((∀ a b, s = a ++ b → isMatch p b = false) ∧ percentPercent p s = s) ∨
      ∃ a b, s = a ++ b ∧ isMatch p b = true ∧ percentPercent p s = a ∧
        ∀ a' b', s = a' ++ b' → isMatch p b' = true → a.length ≤ a'.length := by
  rw [percentPercent]
  rcases cut_spec s (fun _ b => isMatch p b) (fun _ => .rfl) pairwise_le_range Nat.le_refl with
    ⟨h, hno⟩ | ⟨a, b, rfl, hab, h, hmin⟩ <;> rw [h]
  · exact .inl ⟨hno, rfl⟩
  · exact .inr ⟨a, b, rfl, hab, take_left, hmin⟩

theorem percent_spec : ((∀ a b, s = a ++ b → isMatch p b = false) ∧ percent p s = s) ∨
      ∃ a b, s = a ++ b ∧ isMatch p b = true ∧ percent p s = a ∧
        ∀ a' b', s = a' ++ b' → isMatch p b' = true → a'.length ≤ a.length := by
  rw [percent]
  rcases cut_spec s (fun _ b => isMatch p b) (fun _ => mem_reverse)
    (pairwise_reverse.2 pairwise_le_range) Nat.le_refl with
    ⟨h, hno⟩ | ⟨a, b, rfl, hab, h, hmax⟩ <;> rw [h]
  · exact .inl ⟨hno, rfl⟩
  · exact .inr ⟨a, b, rfl, hab, take_left, hmax⟩

end

/-! ## Cutting at a byte -/

section
variable {c : UInt8} {a b : Bytes}

theorem isMatch_star_lit (s : Bytes) : isMatch [.star, .lit c] s = true ↔ ∃ a, s = a ++ [c] := by
  simp [isMatch_star, isMatch_lit]

theorem isMatch_lit_star (s : Bytes) : isMatch [.lit c, .star] s = true ↔ ∃ b, s = c :: b := by
  simp [isMatch_star, isMatch_lit]

theorem isMatch_star_lit_star (s : Bytes) : isMatch [.star, .lit c, .star] s = true ↔ c ∈ s := by
  simp only [isMatch_star, isMatch_lit, isMatch_nil, mem_iff_append]
  constructor
  · rintro ⟨a, _, rfl, b, rfl, -⟩
    exact ⟨a, b, rfl⟩
  · rintro ⟨a, b, rfl⟩
    exact ⟨a, c :: b, rfl, b, rfl, b, [], by simp, rfl⟩

/-- `${s%%c*}` is what stands before the first `c`. -/
theorem percentPercent_lit_star (s : Bytes) :
    percentPercent [.lit c, .star] s = s.takeWhile (· ≠ c) := by
  rcases percentPercent_spec [.lit c, .star] s with ⟨hno, heq⟩ | ⟨a, b, rfl, hmatch, heq, hmin⟩
  · rw [heq, eq_comm, takeWhile_eq_self_iff]
    intro d hd
    obtain ⟨a, b, rfl⟩ := mem_iff_append.1 hd
    have := hno a (d :: b) rfl
    simp only [decide_eq_true_eq]
    rintro rfl
    rw [(isMatch_lit_star _).2 ⟨b, rfl⟩] at this
    cases this
  · obtain ⟨b, rfl⟩ := (isMatch_lit_star _).1 hmatch
    rw [heq, takeWhile_stop _ (by simp)]
    intro d hd
    simp only [decide_eq_true_eq]
    rintro rfl
    obtain ⟨a₁, a₂, rfl⟩ := mem_iff_append.1 hd
    have := hmin a₁ (d :: a₂ ++ d :: b) (by simp) ((isMatch_lit_star _).2 ⟨_, rfl⟩)
    simp at this

/-- `${s#*c}` is what stands behind the first `c`. -/
theorem hash_star_lit (ha : c ∉ a) : hash [.star, .lit c] (a ++ c :: b) = b := by
  rcases hash_spec [.star, .lit c] (a ++ c :: b) with ⟨hno, -⟩ | ⟨a', b', hab, hmatch, heq, hmin⟩
  · have := hno (a ++ [c]) b (by simp)
    rw [(isMatch_star_lit _).2 ⟨a, rfl⟩] at this
    cases this
  · obtain ⟨a', rfl⟩ := (isMatch_star_lit _).1 hmatch
    have hlen := hmin (a ++ [c]) b (by simp) ((isMatch_star_lit _).2 ⟨a, rfl⟩)
    rw [append_assoc, singleton_append] at hab
    rw [heq]
    rcases append_eq_append_iff.1 hab with ⟨t, rfl, ht⟩ | ⟨t, rfl, ht⟩
    · simp only [length_append, length_singleton] at hlen
      obtain rfl := length_eq_zero_iff.1 (by omega : t.length = 0)
      simpa using ht.symm
    · cases t with
      | nil => simpa using ht
      | cons d t => exact absurd (by simp [(cons.inj ht).1]) ha

/-- `${s##*c}` is what stands behind the last `c`. -/
theorem hashHash_star_lit (hb : c ∉ b) : hashHash [.star, .lit c] (a ++ c :: b) = b := by
  rcases hashHash_spec [.star, .lit c] (a ++ c :: b) with
    ⟨hno, -⟩ | ⟨a', b', hab, hmatch, heq, hmax⟩
  · have := hno (a ++ [c]) b (by simp)
    rw [(isMatch_star_lit _).2 ⟨a, rfl⟩] at this
    cases this
  · obtain ⟨a', rfl⟩ := (isMatch_star_lit _).1 hmatch
    have hlen := hmax (a ++ [c]) b (by simp) ((isMatch_star_lit _).2 ⟨a, rfl⟩)
    rw [append_assoc, singleton_append] at hab
    rw [heq]
    rcases append_eq_append_iff.1 hab with ⟨t, rfl, ht⟩ | ⟨t, rfl, ht⟩
    · cases t with
      | nil => simpa using ht.symm
      | cons d t => exact absurd (by simp [(cons.inj ht).2]) hb
    · simp only [length_append, length_singleton] at hlen
      obtain rfl := length_eq_zero_iff.1 (by omega : t.length = 0)
      simpa using ht

theorem hashHash_star_lit_of_not_mem (ha : c ∉ a) : hashHash [.star, .lit c] a = a := by
  rcases hashHash_spec [.star, .lit c] a with ⟨-, heq⟩ | ⟨a', b', rfl, hmatch, -⟩
  · exact heq
  · obtain ⟨a', rfl⟩ := (isMatch_star_lit _).1 hmatch
    simp at ha

/-- What stands before a text with a `c` is cut off with it. -/
theorem hashHash_star_lit_append (hb : c ∈ b) :
    hashHash [.star, .lit c] (a ++ b) = hashHash [.star, .lit c] b := by
  obtain ⟨u, v, huv, hu⟩ := eq_append_cons_of_mem (mem_reverse.2 hb)
  obtain rfl : b = v.reverse ++ c :: u.reverse := by rw [← reverse_reverse b, huv]; simp
  have hu : c ∉ u.reverse := by simpa using hu
  rw [hashHash_star_lit hu, ← append_assoc, hashHash_star_lit hu]

end

theorem isMatch_anys (k : Nat) (s : Bytes) :
    isMatch (List.replicate k .any) s = true ↔ s.length = k := by
  induction k generalizing s with
  | zero => simp
  | succ k ih =>
    cases s with
    | nil => simp [replicate_succ, isMatch]
    | cons c s => simp [replicate_succ, isMatch, Item.accepts, ih]

theorem parse_anys (k : Nat) : parse (List.replicate k 63) = List.replicate k .any := by
  rw [parse, length_replicate]
  induction k with
  | zero => rfl
  | succ k ih => rw [replicate_succ, parseFrom, ih, replicate_succ]

theorem percent_anys (a b : Bytes) : percent (List.replicate b.length .any) (a ++ b) = a := by
  rcases percent_spec (replicate b.length .any) (a ++ b) with
    ⟨hno, -⟩ | ⟨a', b', hab, hmatch, heq, -⟩
  · have := hno a b rfl
    rw [(isMatch_anys _ _).2 rfl] at this
    cases this
  · rw [heq]
    exact (append_inj' hab ((isMatch_anys _ _).1 hmatch).symm).1.symm

/-! ## A text as its own pattern -/

/-- What a byte stands for outside of brackets -/
def Item.of (c : UInt8) : Item := if c = 42 then .star else if c = 63 then .any else .lit c

section
variable {u tail t : Bytes} (hu : ∀ c ∈ u, c ≠ 92 ∧ c ≠ 93) (ht : tail = [] ∨ tail = [92, 93, 58])
include hu ht

/-- No bracket is closed in a text without `\` and `]`, also if `\]:` follows. -/
theorem ranges_eq_none : ranges (u ++ tail) = none := by
  generalize hn : u.length = n
  induction n using Nat.strong_induction_on generalizing u with
  | _ n ih =>
    match u with
    | [] => rcases ht with rfl | rfl <;> rfl
    | [c] => rcases ht with rfl | rfl <;> simp_all [ranges]
    | [c, d] =>
      have hd := ih 1 (by simp at hn; omega) (u := [d]) (by simp_all) rfl
      by_cases h45 : d = 45 <;> rcases ht with rfl | rfl <;> simp_all [ranges]
    | c :: d :: e :: u =>
      have hd := ih (u.length + 2) (by simp at hn; omega) (u := d :: e :: u) (by simp_all) rfl
      have he := ih u.length (by simp at hn; omega) (u := u) (by simp_all) rfl
      simp only [forall_mem_cons] at hu
      by_cases h45 : d = 45 <;> simp_all [ranges]

theorem set_eq_none : set (u ++ tail) = none := by
  have hbracket (neg : Bool) {v : Bytes} (hv : ∀ c ∈ v, c ≠ 92 ∧ c ≠ 93) :
      bracket neg (v ++ tail) = none := by
    have hnone := ranges_eq_none hv ht
    rw [bracket.eq_def]
    split
    · next heq =>
      rcases ht with rfl | rfl <;> cases v <;> simp_all
    · rw [hnone]
      rfl
  cases u with
  | nil => rcases ht with rfl | rfl <;> rfl
  | cons c u =>
    rw [set.eq_def]
    split
    · next heq => exact (cons.inj heq).2 ▸ hbracket true (forall_mem_cons.1 hu).2
    · next heq => exact (cons.inj heq).2 ▸ hbracket true (forall_mem_cons.1 hu).2
    · exact hbracket false hu

end

/-- No byte is escaped and no bracket is closed. -/
structure Flat (u : Bytes) : Prop where
  escape : 92 ∉ u
  bracket : ∀ a b, u = a ++ 91 :: b → 93 ∉ b

theorem Flat.of_suffix {u v : Bytes} (h : Flat v) (hu : u <:+ v) : Flat u := by
  obtain ⟨x, rfl⟩ := hu
  exact ⟨fun hm => h.escape (mem_append_right x hm),
    fun a b hab => h.bracket (x ++ a) b (by simp [hab])⟩

theorem flat_of_not_mem {u : Bytes} (hescape : 92 ∉ u) (hclose : 93 ∉ u) : Flat u :=
  ⟨hescape, fun a b h hm => hclose (by simp [h, hm])⟩

/-- A flat text as a pattern, also if `\]:` follows -/
theorem parseFrom_flat {u tail : Bytes} (h : Flat u)
    (ht : tail = [] ∨ tail = [92, 93, 58]) {k : Nat}
    (hk : (u ++ tail).length ≤ k) : parseFrom k (u ++ tail) = u.map Item.of ++ parse tail := by
  induction u generalizing k with
  | nil =>
    rcases ht with rfl | rfl
    · cases k <;> rfl
    · obtain ⟨m, rfl⟩ := Nat.exists_eq_add_of_le' hk
      rfl
  | cons c u ih =>
    have hu : Flat u := h.of_suffix (suffix_cons c u)
    have hc : c ≠ 92 := fun hc => h.escape (by simp [hc])
    have hset (hc : c = 91) : set (u ++ tail) = none :=
      set_eq_none (fun d hd =>
        ⟨fun he => hu.escape (he ▸ hd), fun he => h.bracket [] u (by simp [hc]) (he ▸ hd)⟩) ht
    obtain ⟨m, rfl⟩ := Nat.exists_eq_add_of_le' (Nat.lt_of_lt_of_le (Nat.succ_pos _) hk)
    have hrest := ih hu (k := m) (by simpa using hk)
    rw [cons_append, parseFrom.eq_def]
    split <;> simp_all [Item.of]

/-- What matches a pattern ends with something that matches the end of the pattern. -/
theorem exists_isMatch_of_append {p q : List Item} {s : Bytes} (h : isMatch (p ++ q) s = true) :
    ∃ a b, s = a ++ b ∧ isMatch q b = true := by
  induction p generalizing s with
  | nil => exact ⟨[], s, rfl, h⟩
  | cons i p ih =>
    obtain ⟨a, t, rfl, ht⟩ : ∃ a t, s = a ++ t ∧ isMatch (p ++ q) t = true := by
      cases i with
      | star => exact (isMatch_star _ _).1 h
      | _ =>
        cases s with
        | nil => cases h
        | cons c s => exact ⟨[c], s, rfl, (Bool.and_eq_true_iff.1 h).2⟩
    obtain ⟨a', b, rfl, hb⟩ := ih ht
    exact ⟨a ++ a', b, by simp, hb⟩

theorem isMatch_of {p : List Item} {t : Bytes} (h : isMatch p t = true) (u : Bytes) :
    isMatch (u.map Item.of ++ p) (u ++ t) = true := by
  induction u with
  | nil => exact h
  | cons c u ih =>
    rw [map_cons, cons_append, cons_append, Item.of]
    split_ifs with hstar hany
    · exact (isMatch_star _ _).2 ⟨[c], u ++ t, rfl, ih⟩
    · simpa [isMatch, Item.accepts] using ih
    · exact (isMatch_lit _ _ _).2 ⟨u ++ t, rfl, ih⟩

/-- The shortest part is not longer than one that matches, and it is not empty if the pattern does
not match nothing. -/
theorem length_hash_lt {p : List Item} {a b : Bytes} (ha : isMatch p a = true)
    (hnil : isMatch p [] = false) : (hash p (a ++ b)).length < (a ++ b).length := by
  rcases hash_spec p (a ++ b) with ⟨hno, -⟩ | ⟨a', b', hab, hmatch, heq, -⟩
  · cases ha.symm.trans (hno a b rfl)
  · have hne : a' ≠ [] := by
      rintro rfl
      cases hnil.symm.trans hmatch
    rw [heq, hab, length_append]
    have := length_pos_iff.2 hne
    omega

theorem hash_suffix (p : List Item) (s : Bytes) : hash p s <:+ s := by
  rcases hash_spec p s with ⟨-, heq⟩ | ⟨a, b, rfl, -, heq, -⟩
  · rw [heq]
  · rw [heq]
    exact suffix_append a b

theorem hash_lits (n t : Bytes) : hash (n.map .lit) (n ++ t) = t := by
  have hiff (a : Bytes) : isMatch (n.map .lit) a = true ↔ a = n := by
    simpa using isMatch_lits n [] a
  rcases hash_spec (n.map .lit) (n ++ t) with ⟨hno, -⟩ | ⟨a, b, hab, hmatch, heq, -⟩
  · cases ((hiff n).2 rfl).symm.trans (hno n t rfl)
  · rw [heq]
    exact (append_cancel_left ((hiff a).1 hmatch ▸ hab)).symm

theorem hashHash_lit (c : UInt8) (s : Bytes) : hashHash [.lit c] (c :: s) = s := by
  have hiff (a : Bytes) : isMatch [.lit c] a = true ↔ a = [c] := by simp [isMatch_lit]
  rcases hashHash_spec [.lit c] (c :: s) with ⟨hno, -⟩ | ⟨a, b, hab, hmatch, heq, -⟩
  · cases ((hiff [c]).2 rfl).symm.trans (hno [c] s rfl)
  · rw [(hiff a).1 hmatch] at hab
    rw [heq]
    exact (cons.inj hab).2.symm

end Glob
