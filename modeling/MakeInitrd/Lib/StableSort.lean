import Mathlib.Data.List.Sort

/-!
# Sorting by a key

`List.insertionSort` by a key keeps the order of the elements with the same key
(`filter_insertionSort`), and a sorted list that does so is the only one (`eq_insertionSort`).
-/

namespace StableSort

open List

variable {α κ : Type*} [LinearOrder κ] {key : α → κ} {l l' : List α}

theorem pairwise_insertionSort :
    (l.insertionSort fun a b => key a ≤ key b).Pairwise fun a b => key a ≤ key b := by
  have htotal : Std.Total fun a b => key a ≤ key b := ⟨fun a b => le_total (key a) (key b)⟩
  have htrans : IsTrans α fun a b => key a ≤ key b := ⟨fun _ _ _ => le_trans⟩
  exact List.pairwise_insertionSort _ l

theorem filter_insertionSort (k : κ) :
    (l.insertionSort fun a b => key a ≤ key b).filter (key · = k) = l.filter (key · = k) := by
  have hsame : (l.filter (key · = k)).Pairwise fun a b => key a ≤ key b := by
    refine pairwise_of_forall_mem_list fun a ha b hb => ?_
    have ha := of_decide_eq_true (mem_filter.1 ha).2
    have hb := of_decide_eq_true (mem_filter.1 hb).2
    exact le_of_eq (ha.trans hb.symm)
  have hsub := (sublist_insertionSort hsame filter_sublist).filter (key · = k)
  simp only [filter_filter, Bool.and_self] at hsub
  exact (hsub.eq_of_length ((perm_insertionSort _ l).filter _).length_eq.symm).symm

theorem eq_of_filter (h : l.Pairwise fun a b => key a ≤ key b)
    (h' : l'.Pairwise fun a b => key a ≤ key b)
    (hfilter : ∀ k, l.filter (key · = k) = l'.filter (key · = k)) : l = l' := by
  have hmem : ∀ a, a ∈ l ↔ a ∈ l' := fun a => by
    have := congrArg (a ∈ ·) (hfilter (key a))
    simpa using this
  induction l generalizing l' with
  | nil => exact (eq_nil_iff_forall_not_mem.2 fun a ha => not_mem_nil ((hmem a).2 ha)).symm
  | cons a l ih =>
    cases l' with
    | nil => exact absurd ((hmem a).1 mem_cons_self) not_mem_nil
    | cons b l' =>
      -- Both heads have the least key.
      have hab : key a ≤ key b := by
        rcases mem_cons.1 ((hmem b).2 mem_cons_self) with rfl | hb
        · exact le_refl _
        · exact rel_of_pairwise_cons h hb
      have hba : key b ≤ key a := by
        rcases mem_cons.1 ((hmem a).1 mem_cons_self) with rfl | ha
        · exact le_refl _
        · exact rel_of_pairwise_cons h' ha
      have hkey : key b = key a := le_antisymm hba hab
      obtain ⟨rfl, -⟩ : a = b ∧ l.filter (key · = key a) = l'.filter (key · = key a) := by
        have := hfilter (key a)
        rw [filter_cons_of_pos (by simp), filter_cons_of_pos (by simpa using hkey)] at this
        exact cons.inj this
      have htail : ∀ k, l.filter (key · = k) = l'.filter (key · = k) := by
        intro k
        have := hfilter k
        rw [filter_cons, filter_cons] at this
        split_ifs at this
        · exact (cons.inj this).2
        · exact this
      refine congrArg (a :: ·) (ih h.of_cons h'.of_cons htail fun c => ?_)
      have := congrArg (c ∈ ·) (htail (key c))
      simpa using this

/-- So a sorted list with the elements of each key in their order is the result of the sort. -/
theorem eq_insertionSort (h : l'.Pairwise fun a b => key a ≤ key b)
    (hfilter : ∀ k, l'.filter (key · = k) = l.filter (key · = k)) :
    l' = l.insertionSort fun a b => key a ≤ key b :=
  eq_of_filter h pairwise_insertionSort fun k => (hfilter k).trans (filter_insertionSort k).symm

end StableSort
