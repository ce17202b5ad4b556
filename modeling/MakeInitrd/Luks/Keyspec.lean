import MakeInitrd.Luks.SplitBy

/-!
# Splitting with a limit

With a count `n`, `shell_split_by` ends at most `n` fields, and the argument of a last call should
be the text behind the `n`th separator (`cut`). But a separator that ends no field is not added to
the argument either, so the further separators are lost (`scan_cut`). The third field of crypttab,
`keyfile[:keydev]`, is split like this with the count 1.
-/

namespace MakeInitrd.Luks

open CMem Words List

/-- The first `n` fields of a text, or all but the last one, and the rest of the text behind their
separators. -/
def cut (sep : UInt8) : Nat → Bytes → List Bytes × Bytes
  | 0, l => ([], l)
  | n + 1, l =>
    if sep ∈ l then
      let r := cut sep n (l.dropWhile (· ≠ sep)).tail
      (l.takeWhile (· ≠ sep) :: r.1, r.2)
    else ([], l)

/-- The call for what is left, if there is anything. -/
def restCall (rest : Bytes) : List Bytes := if rest ≠ [] then [rest] else []

/-- `apply_keyspec`, which sets `keyfile` and `keydev` -/
def applyKeyspec (key : Bytes × Bytes) (arg : Bytes) : Bytes × Bytes :=
  if key.1 = [] then (arg, key.2) else (key.1, arg)

/-- `keyfile` and `keydev` of the third field of a line. -/
def keyspecOf (fillMask : Bytes → Bytes) (keyspec : Bytes) : Bytes × Bytes :=
  if keyspec ≠ [] ∧ Glob.hashHash [.star, .lit 58, .star] keyspec = [] then
    (shellSplitBy fillMask keyspec [58] (some 1)).foldl applyKeyspec ([], [])
  else (keyspec, [])

variable {fillMask : Bytes → Bytes} {sep : UInt8} {a b l t arg : Bytes} {count : Int} {n : Nat}

theorem cut_succ (ha : sep ∉ a) :
    cut sep (n + 1) (a ++ sep :: b) = (a :: (cut sep n b).1, (cut sep n b).2) := by
  have hall : ∀ c ∈ a, decide (c ≠ sep) = true := by
    intro c hc
    exact decide_eq_true fun h => ha (h ▸ hc)
  have htake : (a ++ sep :: b).takeWhile (· ≠ sep) = a := Span.takeWhile_stop hall (by simp)
  have hdrop : (a ++ sep :: b).dropWhile (· ≠ sep) = sep :: b := Span.dropWhile_stop hall (by simp)
  rw [cut, if_pos (by simp), htake, hdrop, tail_cons]

theorem cut_of_not_mem (hl : sep ∉ l) : cut sep n l = ([], l) := by
  cases n with
  | zero => rfl
  | succ n => rw [cut, if_neg hl]

theorem mem_cut_iff : sep ∈ (cut sep n l).2 ↔ n < l.count sep := by
  induction n generalizing l with
  | zero => exact count_pos_iff.symm
  | succ n ih =>
    by_cases hl : sep ∈ l
    · obtain ⟨a, b, rfl, ha⟩ := eq_append_cons_of_mem hl
      rw [cut_succ ha, ih, count_append, count_cons_self, count_eq_zero.2 ha]
      omega
    · rw [cut_of_not_mem hl, count_eq_zero.2 hl]
      simp [hl]

theorem intercalate_cut (sep : UInt8) (n : Nat) (l : Bytes) :
    [sep].intercalate ((cut sep n l).1 ++ [(cut sep n l).2]) = l := by
  induction n generalizing l with
  | zero => simp [cut]
  | succ n ih =>
    by_cases hl : sep ∈ l
    · obtain ⟨a, b, rfl, ha⟩ := eq_append_cons_of_mem hl
      rw [cut_succ ha, cons_append]
      obtain ⟨f, fs, hfs⟩ := exists_cons_of_ne_nil (append_ne_nil_of_right_ne_nil (cut sep n b).1
        (cons_ne_nil (cut sep n b).2 []))
      have hb := ih b
      rw [hfs] at hb ⊢
      rw [intercalate_cons_cons, hb]
      simp
    · simp [cut_of_not_mem hl]

/-! ## The calls -/

theorem scan_append (ha : sep ∉ a) (ha' : 92 ∉ a) :
    scan sep (a ++ t) arg false count = scan sep t (arg ++ a) false count := by
  induction a generalizing arg with
  | nil => simp
  | cons c a ih =>
    have hc : c ≠ sep := fun h => ha (h ▸ mem_cons_self)
    have hc' : c ≠ 92 := fun h => ha' (h ▸ mem_cons_self)
    rw [cons_append, scan, if_neg hc', if_neg hc, ih (fun h => ha (mem_cons_of_mem _ h))
      (fun h => ha' (mem_cons_of_mem _ h))]
    simp

theorem scan_zero (hl : 92 ∉ l) :
    scan sep l arg false 0 = restCall (arg ++ l.filter (· ≠ sep)) := by
  induction l generalizing arg with
  | nil => simp [scan, restCall]
  | cons c l ih =>
    have hc : c ≠ 92 := fun h => hl (h ▸ mem_cons_self)
    have hl' : 92 ∉ l := fun h => hl (mem_cons_of_mem _ h)
    rw [scan, if_neg hc]
    by_cases hsep : c = sep
    · simp [hsep, ih hl']
    · simp [hsep, ih hl']

theorem scan_cut (hl : 92 ∉ l) :
    scan sep l [] false n = (cut sep n l).1 ++ restCall ((cut sep n l).2.filter (· ≠ sep)) := by
  induction n generalizing l with
  | zero => exact scan_zero hl
  | succ n ih =>
    by_cases hmem : sep ∈ l
    · obtain ⟨a, b, rfl, ha⟩ := eq_append_cons_of_mem hmem
      simp only [mem_append, mem_cons, not_or] at hl
      obtain ⟨ha', hsep, hb⟩ := hl
      rw [scan_append ha ha', cut_succ ha, nil_append, scan, if_neg (Ne.symm hsep), if_pos rfl]
      simp only [Bool.false_eq_true, if_false, Nat.cast_add, Nat.cast_one, add_sub_cancel_right,
        ih hb, cons_append]
      exact if_pos (by omega)
    · have hfilter : l.filter (· ≠ sep) = l := filter_eq_self.2 fun c hc => decide_eq_true fun h =>
        hmem (h ▸ hc)
      have hread :
          scan sep (l ++ []) [] false (n + 1 : Nat) = scan sep [] ([] ++ l) false (n + 1 : Nat) :=
        scan_append hmem hl
      rw [append_nil, nil_append] at hread
      rw [cut_of_not_mem hmem, hfilter, hread, scan, restCall, nil_append]

theorem filter_ne_eq_self_iff : l.filter (· ≠ sep) = l ↔ sep ∉ l := by
  rw [filter_eq_self]
  constructor
  · intro h hmem
    simpa using h sep hmem
  · intro h c hc
    exact decide_eq_true fun heq => h (heq ▸ hc)

theorem restCall_filter_iff : restCall (l.filter (· ≠ sep)) = restCall l ↔ sep ∉ l := by
  rw [← filter_ne_eq_self_iff]
  constructor
  · intro h
    by_cases hl : l = []
    · rw [hl]
      rfl
    · rw [restCall, restCall, if_pos hl] at h
      split_ifs at h
      exact (cons.inj h).1
  · intro h
    rw [h]

/-- `keydev` of a field with a colon: what follows the first one, without further colons, but
nothing if the field starts with the colon. -/
theorem keydev_eq (hmask : IsMask fillMask) (ha : 58 ∉ a) (ha' : 92 ∉ a) (hb : 92 ∉ b) :
    (keyspecOf fillMask (a ++ 58 :: b)).2 = if a = [] then [] else b.filter (· ≠ 58) := by
  have hcolon : Glob.hashHash [.star, .lit 58, .star] (a ++ 58 :: b) = [] :=
    (Glob.hashHash_eq_nil _ (by simp)).2 ((Glob.isMatch_star_lit_star _).2 (by simp))
  have hl : 92 ∉ a ++ 58 :: b := by simp [ha', hb]
  have hcalls :
      shellSplitBy fillMask (a ++ 58 :: b) [58] (some 1) = a :: restCall (b.filter (· ≠ 58)) := by
    have hscan : scan 58 (a ++ 58 :: b) [] false (1 : Nat) = _ := scan_cut hl
    rw [cut_succ ha] at hscan
    rw [shellSplitBy_eq_scan hmask]
    exact hscan
  rw [keyspecOf, if_pos ⟨by simp, hcolon⟩, hcalls, foldl_cons, applyKeyspec, if_pos rfl, restCall]
  by_cases hrest : b.filter (· ≠ 58) = []
  · rw [if_neg (not_not.2 hrest), hrest]
    simp
  · rw [if_pos hrest, foldl_cons, foldl_nil, applyKeyspec]
    split_ifs <;> rfl

/-- A split with a limit keeps the rest of a text if and only if it has no separators behind the
limit, and `keydev` is what follows the first colon if and only if it has no further colons and
there is a `keyfile` before it. -/
theorem split_limit_iff (fillMask : Bytes → Bytes) (hmask : IsMask fillMask) :
    (∀ (l : Bytes) (sep : UInt8) (n : Nat), 92 ∉ l →
      ((shellSplitBy fillMask l [sep] (some n) = (cut sep n l).1 ++ restCall (cut sep n l).2 ∧
        ((cut sep n l).2 ≠ [] → [sep].intercalate (shellSplitBy fillMask l [sep] (some n)) = l)) ↔
          l.count sep ≤ n)) ∧
      ∀ keyfile keydev : Bytes, 58 ∉ keyfile → 92 ∉ keyfile → 92 ∉ keydev →
        ((keyspecOf fillMask (keyfile ++ 58 :: keydev)).2 = keydev ↔ keydev = [] ∨ keyfile ≠ [] ∧
          58 ∉ keydev) := by
  refine ⟨fun l sep n hl => ?_, fun keyfile keydev hcolon hfile hdev => ?_⟩
  · rw [shellSplitBy_eq_scan hmask, Option.getD_some, scan_cut hl, append_cancel_left_eq,
      restCall_filter_iff, mem_cut_iff, Nat.not_lt]
    refine ⟨And.left, fun hle => ⟨hle, fun hrest => ?_⟩⟩
    have hnot : sep ∉ (cut sep n l).2 := fun hmem => absurd (mem_cut_iff.1 hmem) (Nat.not_lt.2 hle)
    rw [filter_ne_eq_self_iff.2 hnot, restCall, if_pos hrest, intercalate_cut]
  · rw [keydev_eq hmask hcolon hfile hdev]
    split_ifs with hnil
    · simp [hnil, eq_comm]
    · rw [filter_ne_eq_self_iff]
      constructor
      · exact fun h => Or.inr ⟨hnil, h⟩
      · rintro (rfl | h)
        · exact not_mem_nil
        · exact h.2

theorem split_limit_iff_label :
    shellSplitBy (fun l => List.replicate (l.length - 1) 63) (text "/key:LABEL=usb") [58] (some 1) =
        [text "/key", text "LABEL=usb"] ∧
      (keyspecOf (fun l => List.replicate (l.length - 1) 63) (text "/key:LABEL=usb")).2 =
        text "LABEL=usb" := by
  obtain ⟨hsplit, hkeydev⟩ := split_limit_iff (fun l => replicate (l.length - 1) 63) fun _ => rfl
  exact ⟨((hsplit (text "/key:LABEL=usb") 58 1 (by decide)).2 (by decide)).1,
    (hkeydev (text "/key") (text "LABEL=usb") (by decide) (by decide) (by decide)).2 (by decide)⟩

/-- The device of `/key:/dev/disk/by-path/pci-0000:00` loses a colon. -/
theorem not_split_limit : ¬ ((∀ (l : Bytes) (sep : UInt8) (n : Nat), 92 ∉ l → n < l.count sep →
        shellSplitBy (fun l => List.replicate (l.length - 1) 63) l [sep] (some n) =
          (cut sep n l).1 ++ restCall (cut sep n l).2) ∨
      ∀ keyfile keydev : Bytes, 58 ∉ keyfile → 92 ∉ keyfile → 92 ∉ keydev →
        (keyspecOf (fun l => List.replicate (l.length - 1) 63) (keyfile ++ 58 :: keydev)).2 =
          keydev) := by
  rintro (h | h)
  · have hsplit := h (text "/key:/dev/disk/by-path/pci-0000:00") 58 1 (by decide) (by decide)
    exact absurd hsplit (by decide +kernel)
  · have hkeydev := h (text "/key") (text "/dev/disk/by-path/pci-0000:00") (by decide)
      (by decide) (by decide)
    exact absurd hkeydev (by decide +kernel)

end MakeInitrd.Luks
