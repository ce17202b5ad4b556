import MakeInitrd.Luks.SplitBy

/-!
# Splitting escaped texts

An escaped text has a backslash before every backslash and every separator. Splitting gives the
fields back as long as `quote` is unset where a field ends or another separator is escaped. An
escaped separator leaves `quote` set, and only a character that is neither a separator nor a
backslash unsets it (`flagAfter`), so such a one has to follow in the same field (`Resets`).
-/

namespace MakeInitrd.Luks

open CMem Words List

/-- A backslash before every backslash and every separator. -/
def escape (sep : UInt8) (s : Bytes) : Bytes := s.flatMap fun c => if c = 92 ∨ c = sep then
    [92, c] else [c]

/-- The escaped fields with the separator between them. -/
def joinEscaped (sep : UInt8) (fields : List Bytes) : Bytes :=
  [sep].intercalate (fields.map (escape sep))

/-- Behind the backslashes a text starts with, there is no separator; there is another character, or
the text is that of the `last` field. -/
def Clears (sep : UInt8) (last : Bool) (s : Bytes) : Prop :=
  (s.dropWhile (· = 92)).head? ≠ some sep ∧ (s.dropWhile (· = 92) = [] → last = true)

/-- Every separator of a field is followed by a character that unsets `quote`. -/
def Resets (sep : UInt8) (last : Bool) (s : Bytes) : Prop :=
  ∀ a b, s = a ++ sep :: b → Clears sep last b

/-- `quote` behind the escaped text `s`; `none` if an escaped separator is taken for one that ends a
field. -/
def flagAfter (sep : UInt8) : Bool → Bytes → Option Bool
  | quote, [] => some quote
  | quote, c :: s =>
    if c = 92 then flagAfter sep quote s
    else if c = sep then if quote then none else flagAfter sep true s
    else flagAfter sep false s

variable {fillMask : Bytes → Bytes} {sep c : UInt8} {s t arg : Bytes}
    {quote quote' last : Bool} {count : Int}
  {xs : List Bytes}

/-! ## The flag -/

theorem scan_escape (hsep : sep ≠ 92) (hflag : flagAfter sep quote s = some quote') :
    scan sep (escape sep s ++ t) arg quote count = scan sep t (arg ++ s) quote' count := by
  induction s generalizing arg quote with
  | nil =>
    cases hflag
    simp [escape]
  | cons c s ih =>
    rw [escape, flatMap_cons, ← escape]
    rw [flagAfter] at hflag
    split_ifs at hflag with h92 hc hquote
    · -- Either backslash is the one that is read, and `quote` is as before.
      have hread :
          scan sep (escape sep s ++ t) (arg ++ [c]) quote count =
            scan sep t (arg ++ [c] ++ s) quote' count :=
        ih hflag
      cases quote <;> simpa [scan, h92] using hread
    · have hquote : quote = false := by simpa using hquote
      have hread :
          scan sep (escape sep s ++ t) (arg ++ [c]) true count =
            scan sep t (arg ++ [c] ++ s) quote' count :=
        ih hflag
      simpa [scan, hc, hsep, hquote] using hread
    · have hread :
          scan sep (escape sep s ++ t) (arg ++ [c]) false count =
            scan sep t (arg ++ [c] ++ s) quote' count :=
        ih hflag
      simpa [scan, h92, hc] using hread

theorem exists_of_flagAfter_eq_none (h : flagAfter sep quote s = none) :
    ∃ a b, s = a ++ sep :: b ∧ flagAfter sep quote a = some true := by
  induction s generalizing quote with
  | nil => cases h
  | cons c s ih =>
    rw [flagAfter] at h
    split_ifs at h with h92 hc hquote
    · obtain ⟨a, b, rfl, ha⟩ := ih h
      exact ⟨c :: a, b, rfl, by rw [flagAfter, if_pos h92, ha]⟩
    · exact ⟨[], s, by rw [hc]; rfl, by rw [flagAfter, hquote]⟩
    · obtain ⟨a, b, rfl, ha⟩ := ih h
      exact ⟨c :: a, b, rfl, by rw [flagAfter, if_neg h92, if_pos hc, if_neg hquote, ha]⟩
    · obtain ⟨a, b, rfl, ha⟩ := ih h
      exact ⟨c :: a, b, rfl, by rw [flagAfter, if_neg h92, if_neg hc, ha]⟩

theorem resets_cons :
    Resets sep last (c :: s) ↔ (c = sep → Clears sep last s) ∧ Resets sep last s := by
  constructor
  · intro h
    refine ⟨fun hc => h [] s (by rw [hc]; rfl), fun a b hs => h (c :: a) b (by rw [hs]; rfl)⟩
  · rintro ⟨hc, hs⟩ a b heq
    cases a with
    | nil =>
      obtain ⟨rfl, rfl⟩ := cons.inj heq
      exact hc rfl
    | cons d a => exact hs a b (cons.inj heq).2

section
variable (hsep : sep ≠ 92)
include hsep

theorem exists_flagAfter_iff (quote last : Bool) (s : Bytes) :
    (∃ quote', flagAfter sep quote s = some quote' ∧ (quote' = true → last = true)) ↔
      (quote = true → Clears sep last s) ∧ Resets sep last s := by
  induction s generalizing quote with
  | nil => simp [flagAfter, Clears, Resets]
  | cons c s ih =>
    rw [flagAfter, resets_cons]
    by_cases h92 : c = 92
    · have hclears : Clears sep last (c :: s) ↔ Clears sep last s := by
        rw [Clears, dropWhile_cons_of_pos (by simpa using h92), ← Clears]
      rw [if_pos h92, ih quote, hclears]
      simp [h92, hsep.symm]
    · have hdrop : (c :: s).dropWhile (· = 92) = c :: s :=
        dropWhile_cons_of_neg (by simpa using h92)
      rw [if_neg h92, Clears, hdrop]
      by_cases hc : c = sep
      · cases quote
        · simp [hc, ih]
        · simp [hc]
      · simp [hc, ih]

theorem resets_false_iff : Resets sep false s ↔ flagAfter sep false s = some false := by
  simpa using (exists_flagAfter_iff hsep false false s).symm

theorem resets_true_iff : Resets sep true s ↔ (flagAfter sep false s).isSome = true := by
  simpa [Option.isSome_iff_exists] using (exists_flagAfter_iff hsep false true s).symm

/-! ## Fields -/

theorem scan_ne_of_flagAfter_eq_none (hcount : count ≠ 0) (h : flagAfter sep false s = none) :
    scan sep (escape sep s ++ t) [] false count ≠ s :: xs := by
  obtain ⟨a, b, rfl, ha⟩ := exists_of_flagAfter_eq_none h
  have hesc :
      escape sep (a ++ sep :: b) ++ t = escape sep a ++ 92 :: sep :: (escape sep b ++ t) := by
        simp [escape]
  rw [hesc, scan_escape hsep ha]
  simp only [scan, hsep, hcount, if_true, if_false, ne_eq, not_false_eq_true, nil_append]
  intro heq
  have := (cons.inj heq).1
  simp [hsep.symm] at this

theorem scan_field_iff (hcount : count ≠ 0) :
    scan sep (escape sep s ++ sep :: t) [] false count = s :: xs ↔
      Resets sep false s ∧ scan sep t [] false (count - 1) = xs := by
  rw [resets_false_iff hsep]
  cases hflag : flagAfter sep false s with
  | none => simpa using scan_ne_of_flagAfter_eq_none hsep hcount hflag
  | some quote =>
    rw [scan_escape hsep hflag]
    cases quote with
    | false => simp [scan, hsep, hcount]
    | true =>
      -- The separator becomes part of the field.
      have hne : s ++ [sep] ≠ [] := by simp
      obtain ⟨x, xs', heq, hx⟩ := scan_starts sep t hne true count
      simp only [scan, hsep, if_true, if_false, nil_append, heq, Option.some_inj,
        Bool.true_eq_false, false_and, iff_false]
      rintro h
      have := (cons.inj h).1 ▸ hx.length_le
      simp at this

theorem scan_last_iff (hcount : count ≠ 0) (hs : s ≠ []) :
    scan sep (escape sep s) [] false count = [s] ↔ Resets sep true s := by
  rw [resets_true_iff hsep, ← append_nil (escape sep s)]
  cases hflag : flagAfter sep false s with
  | none => simpa using scan_ne_of_flagAfter_eq_none (t := []) hsep hcount hflag
  | some quote =>
    rw [scan_escape hsep hflag]
    simp [scan, hs]

end

theorem joinEscaped_cons {fields : List Bytes} (hne : fields ≠ []) :
    joinEscaped sep (s :: fields) = escape sep s ++ sep :: joinEscaped sep fields := by
  obtain ⟨s', fields, rfl⟩ := exists_cons_of_ne_nil hne
  simp [joinEscaped, intercalate_cons_cons]

theorem scan_joinEscaped_iff (hsep : sep ≠ 92) (init : List Bytes) {s : Bytes} (hs : s ≠ [])
    (hcount : count < 0) :
    scan sep (joinEscaped sep (init ++ [s])) [] false count = init ++ [s] ↔
      (∀ f ∈ init, Resets sep false f) ∧ Resets sep true s := by
  induction init generalizing count with
  | nil =>
    have hone : joinEscaped sep [s] = escape sep s := by simp [joinEscaped]
    simp [hone, scan_last_iff hsep hcount.ne hs]
  | cons f init ih =>
    rw [cons_append, joinEscaped_cons (by simp), scan_field_iff hsep hcount.ne, ih (by omega),
      forall_mem_cons, and_assoc]

/-- Splitting undoes escaping if and only if behind every separator of a field comes, after
backslashes at most, another character of the field that is no separator; behind a separator of the
last field the text may also end. -/
theorem split_joinEscaped_iff (fillMask : Bytes → Bytes) (hmask : IsMask fillMask) (sep : UInt8)
    (hsep : sep ≠ 92) (init : List Bytes) (last : Bytes) (hlast : last ≠ []) :
    shellSplitBy fillMask (joinEscaped sep (init ++ [last])) [sep] none = init ++ [last] ↔
      (∀ s ∈ init, Resets sep false s) ∧ Resets sep true last := by
  rw [shellSplitBy_eq_scan hmask]
  exact scan_joinEscaped_iff hsep init hlast (by decide)

theorem split_joinEscaped_iff_discard : shellSplitBy (fun l => List.replicate (l.length - 1) 63)
      (joinEscaped 44 [text "header=a,b", text "discard"]) [44] none =
        [text "header=a,b", text "discard"] := by
  refine (split_joinEscaped_iff _ (fun _ => rfl) 44 (by decide) [text "header=a,b"] (text "discard")
    (by decide)).2 ⟨?_, ?_⟩
  · rw [forall_mem_singleton]
    exact (resets_false_iff (by decide)).2 (by decide)
  · exact (resets_true_iff (by decide)).2 (by decide)

/-- A comma at the end of a field runs the field into the next one. -/
theorem not_split_joinEscaped :
    ¬ ∀ (sep : UInt8) (init : List Bytes) (last : Bytes), sep ≠ 92 → last ≠ [] →
      shellSplitBy (fun l => List.replicate (l.length - 1) 63)
        (joinEscaped sep (init ++ [last])) [sep] none =
        init ++ [last] := by
  intro h
  have hsplit := h 44 [text "a,"] (text "b") (by decide) (by decide)
  exact absurd hsplit (by decide +kernel)

end MakeInitrd.Luks
