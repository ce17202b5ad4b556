import Mathlib.Data.List.TakeWhile

/-!
# The first run of a list

What `List.takeWhile` and `List.dropWhile` make of a list whose first run is known: a run of
elements with some property, and then an element without it.
-/

namespace Span

variable {α : Type*} {f : α → Bool} {l s t t' : List α} {x : α}

theorem takeWhile_stop (hl : ∀ a ∈ l, f a) (hx : f x = false) : (l ++ x :: t).takeWhile f = l := by
  induction l with
  | nil => simp [hx]
  | cons a l ih =>
    simp only [List.cons_append, List.takeWhile_cons, hl a (by simp), if_true]
    rw [ih fun b hb => hl b (List.mem_cons_of_mem _ hb)]

theorem dropWhile_stop (hl : ∀ a ∈ l, f a) (hx : f x = false) :
    (l ++ x :: t).dropWhile f = x :: t := by
  induction l with
  | nil => simp [hx]
  | cons a l ih =>
    simp only [List.cons_append, List.dropWhile_cons, hl a (by simp), if_true]
    exact ih fun b hb => hl b (List.mem_cons_of_mem _ hb)

theorem false_of_dropWhile (h : s.dropWhile f = x :: t) : f x = false := by
  induction s with
  | nil => simp at h
  | cons a s ih =>
    rw [List.dropWhile_cons] at h
    split_ifs at h with ha
    · exact ih h
    · cases h; exact Bool.eq_false_iff.2 ha

/-- A run goes on with another text in the same way if the text starts with the same element. -/
theorem takeWhile_run (t' : List α) (h : s.dropWhile f = x :: t) :
    (s.takeWhile f ++ x :: t').takeWhile f = s.takeWhile f ∧
      (s.takeWhile f ++ x :: t').dropWhile f = x :: t' :=
  ⟨takeWhile_stop (fun _ => List.mem_takeWhile_imp) (false_of_dropWhile h),
    dropWhile_stop (fun _ => List.mem_takeWhile_imp) (false_of_dropWhile h)⟩

theorem dropWhile_of_mem [DecidableEq α] (h : x ∈ s) :
    s.dropWhile (· ≠ x) = x :: (s.dropWhile (· ≠ x)).tail := by
  induction s with
  | nil => simp at h
  | cons a s ih =>
    by_cases ha : a = x
    · simp [ha]
    · rw [List.dropWhile_cons, if_pos (by simpa using ha)]
      exact ih ((List.mem_cons.1 h).resolve_left fun e => ha e.symm)

end Span
