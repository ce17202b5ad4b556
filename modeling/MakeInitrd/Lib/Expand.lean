import Mathlib.Data.Finset.Card

/-!
# Recursive expansion of a list

`expand` replaces every element of a list by itself and the expansion of its successors, and drops
what a test does not keep. The result holds what can be reached through elements that are kept
(`mem_expand`), and there is a result if the successors have no cycle (`exists_depth`).
-/

namespace Expand

open Relation List

variable {α : Type} (next : α → List α) (keep : α → Bool)

/-- The expansion of a list to a depth; `none` if the depth does not suffice. -/
def expand : Nat → List α → Option (List α)
  | 0, _ => none
  | depth + 1, xs =>
    ((xs.filter keep).mapM fun x => (expand depth (next x)).map fun r => x ::
      r.filter keep).map List.flatten

theorem mapM_eq_some {β : Type} {f : α → Option β} {xs : List α} {rs : List β}
    (h : xs.mapM f = some rs) :
    (∀ x ∈ xs, ∃ r ∈ rs, f x = some r) ∧ ∀ r ∈ rs, ∃ x ∈ xs, f x = some r := by
  induction xs generalizing rs with
  | nil =>
    obtain rfl : rs = [] := by simpa using h.symm
    simp
  | cons x xs ih =>
    rw [mapM_cons] at h
    obtain ⟨r₁, h₁, h⟩ := Option.bind_eq_some_iff.1 h
    obtain ⟨rs₂, h₂, h⟩ := Option.bind_eq_some_iff.1 h
    obtain rfl : r₁ :: rs₂ = rs := Option.some.inj h
    obtain ⟨hxs, hrs⟩ := ih h₂
    refine ⟨fun z hz => ?_, fun r hr => ?_⟩
    · rcases mem_cons.1 hz with rfl | hz
      · exact ⟨r₁, mem_cons_self .., h₁⟩
      · obtain ⟨r, hr, hfz⟩ := hxs z hz
        exact ⟨r, mem_cons_of_mem _ hr, hfz⟩
    · rcases mem_cons.1 hr with rfl | hr
      · exact ⟨x, mem_cons_self .., h₁⟩
      · obtain ⟨z, hz, hfz⟩ := hrs r hr
        exact ⟨z, mem_cons_of_mem _ hz, hfz⟩

variable {next keep}

/-- The expansion holds what can be reached. -/
theorem mem_expand {depth : Nat} {xs r : List α} (h : expand next keep depth xs = some r) {y : α} :
    y ∈ r ↔ ∃ x ∈ xs, keep x = true ∧ ReflTransGen (fun a b => b ∈ next a ∧ keep b = true) x y := by
  induction depth generalizing xs r y with
  | zero => cases h
  | succ depth ih =>
    obtain ⟨rs, hrs, rfl⟩ := Option.map_eq_some_iff.1 h
    obtain ⟨hall, hsome⟩ := mapM_eq_some hrs
    rw [mem_flatten]
    constructor
    · rintro ⟨r, hr, hy⟩
      obtain ⟨x, hx, hfx⟩ := hsome r hr
      obtain ⟨hx, hkeep⟩ := mem_filter.1 hx
      obtain ⟨r₁, h₁, rfl⟩ := Option.map_eq_some_iff.1 hfx
      refine ⟨x, hx, hkeep, ?_⟩
      rcases mem_cons.1 hy with rfl | hy
      · exact .refl
      · obtain ⟨z, hz, hkeepz, hreach⟩ := (ih h₁).1 (mem_of_mem_filter hy)
        exact .head ⟨hz, hkeepz⟩ hreach
    · rintro ⟨x, hx, hkeep, hreach⟩
      obtain ⟨r, hr, hfx⟩ := hall x (mem_filter.2 ⟨hx, hkeep⟩)
      obtain ⟨r₂, h₂, rfl⟩ := Option.map_eq_some_iff.1 hfx
      refine ⟨_, hr, ?_⟩
      rcases ReflTransGen.cases_head hreach with rfl | ⟨z, ⟨hz, hkeepz⟩, hreach⟩
      · exact mem_cons_self ..
      · refine mem_cons_of_mem _ (mem_filter.2 ⟨(ih h₂).2 ⟨z, hz, hkeepz, hreach⟩, ?_⟩)
        rcases ReflTransGen.cases_tail hreach with rfl | ⟨w, -, hw⟩
        · exact hkeepz
        · exact hw.2

theorem exists_expand {rank : α → Nat} (hrank : ∀ x, ∀ y ∈ next x, rank y < rank x)
    {depth : Nat} {xs : List α}
    (hdepth : ∀ x ∈ xs, rank x < depth) : ∃ r, expand next keep (depth + 1) xs = some r := by
  induction depth generalizing xs with
  | zero =>
    obtain rfl : xs = [] := eq_nil_iff_forall_not_mem.2 fun x hx => absurd (hdepth x hx) (by omega)
    exact ⟨[], rfl⟩
  | succ depth ih =>
    have hall : ∀ ys : List α, (∀ y ∈ ys, rank y < depth + 1) →
        ∃ rs, (ys.mapM fun x => (expand next keep (depth + 1) (next x)).map fun r => x ::
          r.filter keep) = some rs := by
      intro ys hys
      induction ys with
      | nil => exact ⟨[], rfl⟩
      | cons y ys ihys =>
        have hnext : ∀ z ∈ next y, rank z < depth := by
          intro z hz
          have := hrank y z hz
          have := hys y (by simp)
          omega
        obtain ⟨r, hr⟩ := ih hnext
        obtain ⟨rs, hrs⟩ := ihys fun z hz => hys z (mem_cons_of_mem _ hz)
        exact ⟨_, by rw [mapM_cons, hr, hrs]; rfl⟩
    obtain ⟨rs, hrs⟩ := hall (xs.filter keep) fun x hx => hdepth x (mem_of_mem_filter hx)
    exact ⟨rs.flatten, by rw [expand, hrs]; rfl⟩

/-- A relation without cycles into a finite set descends: an element reaches more than those it is
related to. -/
theorem exists_rank {R : α → α → Prop} (hacyclic : ∀ x, ¬TransGen R x x) (s : Finset α)
    (hs : ∀ a b, R a b → b ∈ s) :
    ∃ rank : α → Nat, (∀ a, rank a ≤ s.card) ∧ ∀ a b, R a b → rank b < rank a := by
  classical
  refine ⟨fun a => (s.filter fun b => TransGen R a b).card, fun a => Finset.card_filter_le _ _,
    fun a b hab => Finset.card_lt_card ?_⟩
  rw [Finset.ssubset_iff_of_subset]
  · exact ⟨b, Finset.mem_filter.2 ⟨hs a b hab, .single hab⟩,
      fun hb => hacyclic b (Finset.mem_filter.1 hb).2⟩
  · intro c hc
    obtain ⟨hcs, hbc⟩ := Finset.mem_filter.1 hc
    exact Finset.mem_filter.2 ⟨hcs, .head hab hbc⟩

theorem exists_depth (hacyclic : ∀ x, ¬TransGen (fun a b => b ∈ next a) x x) (s : Finset α)
    (hs : ∀ a, ∀ b ∈ next a, b ∈ s) {depth : Nat} (hdepth : s.card + 1 < depth) (xs : List α) :
    ∃ r, expand next keep depth xs = some r := by
  obtain ⟨rank, hle, hrank⟩ := exists_rank hacyclic s hs
  obtain ⟨k, rfl⟩ : ∃ k, depth = k + 1 := ⟨depth - 1, by omega⟩
  exact exists_expand hrank fun x _ => (hle x).trans_lt (by omega)

end Expand
