import Mathlib.Order.WellFounded
import Mathlib.Data.Fintype.EquivFin

/-!
# Kahn's algorithm

A topological sort that counts, for every vertex, the edges into it from vertices that are not yet
ordered, and keeps the vertices without such edges in a queue. `Sorting` is what the ordered
vertices, the queue and the counters have in common at any time. When the queue is empty the
vertices are ordered, or there is a cycle among those that are left (`Sorting.length_lt_iff`).

The sort can also count tiers: a vertex is one tier above the highest one with an edge to it. As the
queue is first in, first out, the tiers of the ordered vertices never go down (`Tiered`), and in the
end the tier of a vertex is the length of a longest path to it (`Tiered.isGreatest`).
-/

namespace Kahn

open Relation List

universe u

variable {α : Type u} [DecidableEq α]

/-- The ordered vertices `order`, the queue and the counters `deg` of a sort of the vertices `V` -/
structure Sorting (V : Finset α) (E : α → α → Prop) [DecidableRel E] (order queue : List α)
    (deg : α → Int) : Prop where
  nodup : (order ++ queue).Nodup
  sub : ∀ v ∈ order ++ queue, v ∈ V
  deg_eq : ∀ v ∈ V, deg v = (V.filter fun u => E u v ∧ u ∉ order).card
  ready : ∀ v ∈ V, v ∈ order ++ queue ↔ deg v = 0
  /-- all that comes before an ordered vertex has been ordered before it -/
  sorted : ∀ a v b, order = a ++ v :: b → ∀ u ∈ V, E u v → u ∈ a

variable {V : Finset α} {E : α → α → Prop} [DecidableRel E] {order queue : List α}
    {deg deg' : α → Int}

theorem Sorting.init (hdeg : ∀ v ∈ V, deg v = (V.filter fun u => E u v).card) (hnodup : queue.Nodup)
    (hqueue : ∀ v, v ∈ queue ↔ v ∈ V ∧ deg v = 0) : Sorting V E [] queue deg where
  nodup := hnodup
  sub v hv := ((hqueue v).1 hv).1
  deg_eq v hv := by simpa using hdeg v hv
  ready v hv := (hqueue v).trans (and_iff_right hv)
  sorted a v b h := by simp at h

theorem Sorting.mem_order_of_edge (h : Sorting V E order queue deg) {u v : α}
    (hv : v ∈ order ++ queue) (hu : u ∈ V) (he : E u v) : u ∈ order := by
  have hdeg := h.deg_eq v (h.sub v hv)
  rw [(h.ready v (h.sub v hv)).1 hv] at hdeg
  have hempty : V.filter (fun u => E u v ∧ u ∉ order) = ∅ :=
    Finset.card_eq_zero.1 (by exact_mod_cast hdeg.symm)
  by_contra hno
  have : u ∈ V.filter fun u => E u v ∧ u ∉ order := Finset.mem_filter.2 ⟨hu, he, hno⟩
  rw [hempty] at this
  cases this

/-- The next vertex is ordered, the counters of what comes after it go down, and those that are down
to zero are put into the queue. -/
theorem Sorting.pop {u : α} {new : List α} (h : Sorting V E order (u :: queue) deg)
    (hdeg : ∀ v ∈ V, deg' v = deg v - if E u v then 1 else 0) (hnodup : new.Nodup)
    (hnew : ∀ v, v ∈ new ↔ v ∈ V ∧ E u v ∧ deg' v = 0) :
    Sorting V E (order ++ [u]) (queue ++ new) deg' := by
  have hu : u ∈ V := h.sub u (by simp)
  have huo : u ∉ order := by
    have := h.nodup
    grind
  have hcount : ∀ v ∈ V, deg' v = (V.filter fun w => E w v ∧ w ∉ order ++ [u]).card := by
    intro v hv
    rw [hdeg v hv, h.deg_eq v hv]
    have herase :
        (V.filter fun w => E w v ∧ w ∉ order ++ [u]) =
          (V.filter fun w => E w v ∧ w ∉ order).erase u := by
      ext w
      simp only [Finset.mem_filter, Finset.mem_erase, mem_append, mem_singleton, not_or]
      tauto
    rw [herase]
    split_ifs with he
    · rw [Finset.card_erase_of_mem (Finset.mem_filter.2 ⟨hu, he, huo⟩)]
      have : 0 < (V.filter fun w => E w v ∧ w ∉ order).card :=
        Finset.card_pos.2 ⟨u, Finset.mem_filter.2 ⟨hu, he, huo⟩⟩
      omega
    · rw [Finset.erase_eq_of_notMem (fun hm => he (Finset.mem_filter.1 hm).2.1)]
      simp
  -- a vertex that is ready had no edge from `u`, which was not ordered yet
  have hedge : ∀ v ∈ order ++ u :: queue, ¬E u v :=
    fun v hv he => huo (h.mem_order_of_edge hv hu he)
  refine ⟨?_, ?_, hcount, ?_, ?_⟩
  · have hdisj : ∀ v ∈ new, v ∉ order ++ u :: queue := fun v hv hm =>
      hedge v hm ((hnew v).1 hv).2.1
    have := h.nodup
    grind
  · intro v hv
    have := h.sub v
    have := hnew v
    grind
  · intro v hv
    have hready := h.ready v hv
    have hd := hdeg v hv
    have hn := hnew v
    by_cases he : E u v
    · have : v ∉ order ++ u :: queue := fun hm => hedge v hm he
      grind
    · simp only [he, if_false, Int.sub_zero] at hd
      grind
  · intro a v b hsplit w hw he
    rcases eq_nil_or_concat' b with rfl | ⟨b, x, rfl⟩
    · obtain ⟨rfl, hv⟩ := append_inj' hsplit rfl
      obtain rfl : u = v := by simpa using hv
      exact h.mem_order_of_edge (by simp) hw he
    · have : order ++ [u] = (a ++ v :: b) ++ [x] := by simpa using hsplit
      exact h.sorted a v b (append_inj' this rfl).1 w hw he

section
variable (h : Sorting V E order [] deg)
include h

theorem Sorting.idxOf_lt {u v : α} (hv : v ∈ order) (hu : u ∈ V) (he : E u v) :
    order.idxOf u < order.idxOf v := by
  obtain ⟨a, b, rfl⟩ := mem_iff_append.1 hv
  have hua : u ∈ a := h.sorted a v b rfl u hu he
  have hva : v ∉ a := by
    have := h.nodup
    grind
  rw [idxOf_append_of_mem hua, idxOf_append_of_notMem hva, idxOf_cons_self]
  exact idxOf_lt_length_of_mem hua

theorem Sorting.mem_iff_of_length (hlen : V.card ≤ order.length) (v : α) : v ∈ order ↔ v ∈ V := by
  have hnodup : order.Nodup := by simpa using h.nodup
  have hsub : order.toFinset ⊆ V := fun x hx => h.sub x (by simpa using hx)
  have : order.toFinset = V :=
    Finset.eq_of_subset_of_card_le hsub (by rwa [toFinset_card_of_nodup hnodup])
  rw [← this, mem_toFinset]

/-- A vertex that has not been ordered has an edge from one that has not been ordered either. -/
theorem Sorting.exists_edge {v : α} (hv : v ∈ V) (hno : v ∉ order) :
    ∃ u ∈ V, E u v ∧ u ∉ order := by
  have hdeg : deg v ≠ 0 := fun hz => hno (by simpa using (h.ready v hv).2 hz)
  rw [h.deg_eq v hv, Int.natCast_ne_zero, Finset.card_ne_zero] at hdeg
  obtain ⟨u, hu⟩ := hdeg
  exact ⟨u, (Finset.mem_filter.1 hu).1, (Finset.mem_filter.1 hu).2⟩

/-- When the queue is empty, vertices are missing in the order if and only if there is a cycle. -/
theorem Sorting.length_lt_iff (hE : ∀ u v, E u v → u ∈ V ∧ v ∈ V) :
    order.length < V.card ↔ ∃ v, TransGen E v v := by
  constructor
  · intro hlt
    by_contra hcycle
    obtain ⟨x, hx, hxo⟩ : ∃ x ∈ V, x ∉ order := by
      by_contra hall
      push Not at hall
      have : V ⊆ order.toFinset := fun x hx => by simpa using hall x hx
      have := Finset.card_le_card this
      have := order.toFinset_card_le
      omega
    -- without a cycle, what is left has a first vertex
    let R : V → V → Prop := fun a b => TransGen E a b
    have : IsTrans V R := ⟨fun _ _ _ => TransGen.trans⟩
    have : Std.Irrefl R := ⟨fun a ha => hcycle ⟨a, ha⟩⟩
    obtain ⟨m, hm, hmin⟩ := (Finite.wellFounded_of_trans_of_irrefl R).has_min
      {y | y.1 ∉ order} ⟨⟨x, hx⟩, hxo⟩
    obtain ⟨u, hu, he, huo⟩ := h.exists_edge m.2 hm
    exact hmin ⟨u, hu⟩ huo (.single he)
  · rintro ⟨v, hv⟩
    by_contra hlen
    have hmem := h.mem_iff_of_length (Nat.le_of_not_lt hlen)
    have hlt : ∀ {a b}, TransGen E a b → order.idxOf a < order.idxOf b := by
      intro a b hab
      induction hab with
      | single he => exact h.idxOf_lt ((hmem _).2 (hE _ _ he).2) (hE _ _ he).1 he
      | tail _ he ih => exact ih.trans (h.idxOf_lt ((hmem _).2 (hE _ _ he).2) (hE _ _ he).1 he)
    exact lt_irrefl _ (hlt hv)

end

/-! ## Tiers -/

/-- There is a path of `n` edges that ends at a vertex. -/
inductive PathTo (E : α → α → Prop) : Nat → α → Prop
  | nil (v : α) : PathTo E 0 v
  | snoc {n : Nat} {u v : α} : PathTo E n u → E u v → PathTo E (n + 1) v

/-- A vertex is one tier above the highest of the ordered vertices with an edge to it. The tiers do
not go down along the order and the queue, and the queue has vertices of two tiers at most. -/
structure Tiered (V : Finset α) (E : α → α → Prop) (order queue : List α) (tier : α → Nat) :
    Prop where
  above : ∀ u ∈ order, ∀ v ∈ V, E u v → tier u + 1 ≤ tier v
  attained : ∀ v ∈ V, tier v = 0 ∨ ∃ u ∈ order, E u v ∧ tier v = tier u + 1
  sorted : (order ++ queue).Pairwise (tier · ≤ tier ·)
  narrow : ∀ u ∈ queue, ∀ v ∈ queue, tier v ≤ tier u + 1

omit [DecidableEq α] in
theorem Tiered.init (V : Finset α) (E : α → α → Prop) (queue : List α) :
    Tiered V E [] queue fun _ => 0 where
  above := nofun
  attained _ _ := .inl rfl
  sorted := pairwise_of_forall fun _ _ => le_rfl
  narrow _ _ _ _ := Nat.zero_le _

/-- A round of the sort keeps the tiers in order. -/
theorem Tiered.pop {u : α} {new : List α} {tier tier' : α → Nat}
    (hs : Sorting V E order (u :: queue) deg) (h : Tiered V E order (u :: queue) tier)
    (htier : ∀ v, tier' v = if E u v then max (tier v) (tier u + 1) else tier v)
    (hnew : ∀ v ∈ new, v ∈ V ∧ E u v) :
    Tiered V E (order ++ [u]) (queue ++ new) tier' := by
  have hu : u ∈ V := hs.sub u (by simp)
  have huo : u ∉ order := by
    have := hs.nodup
    grind
  -- what is ready stays on its tier: it has no edge from `u`, which was not ordered yet
  have hkept : ∀ v ∈ order ++ u :: queue, tier' v = tier v := fun v hv => by
    rw [htier, if_neg fun he => huo (hs.mem_order_of_edge hv hu he)]
  have hsplit := pairwise_append.1 h.sorted
  have hbelow : ∀ v ∈ order, tier v ≤ tier u := fun v hv => hsplit.2.2 v hv u (by simp)
  have hceil : ∀ v ∈ V, tier v ≤ tier u + 1 := by
    intro v hv
    rcases h.attained v hv with h0 | ⟨w, hw, -, heq⟩
    · omega
    · have := hbelow w hw
      omega
  have hraised : ∀ v ∈ new, tier' v = tier u + 1 := by
    intro v hv
    obtain ⟨hV, he⟩ := hnew v hv
    rw [htier, if_pos he]
    exact max_eq_right (hceil v hV)
  have hqueue : ∀ v ∈ queue ++ new, tier u ≤ tier' v ∧ tier' v ≤ tier u + 1 := by
    intro v hv
    rcases mem_append.1 hv with hv | hv
    · rw [hkept v (by simp [hv])]
      exact ⟨(pairwise_cons.1 hsplit.2.1).1 v hv, h.narrow u (by simp) v (by simp [hv])⟩
    · rw [hraised v hv]
      omega
  refine ⟨?_, ?_, ?_, ?_⟩
  · intro w hw v hv he
    have hmono : tier v ≤ tier' v := by
      rw [htier]
      split_ifs
      · exact le_max_left _ _
      · exact le_rfl
    rcases mem_append.1 hw with hw | hw
    · rw [hkept w (by simp [hw])]
      exact (h.above w hw v hv he).trans hmono
    · obtain rfl := mem_singleton.1 hw
      rw [hkept w (by simp), htier v, if_pos he]
      exact le_max_right _ _
  · intro v hv
    by_cases he : E u v ∧ tier v < tier u + 1
    · refine .inr ⟨u, by simp, he.1, ?_⟩
      rw [hkept u (by simp), htier, if_pos he.1]
      exact max_eq_right he.2.le
    · have heq : tier' v = tier v := by
        rw [htier]
        split_ifs with hE
        · exact max_eq_left (Nat.le_of_not_lt fun hlt => he ⟨hE, hlt⟩)
        · rfl
      rw [heq]
      refine (h.attained v hv).imp_right ?_
      rintro ⟨w, hw, hwv, hw'⟩
      exact ⟨w, by simp [hw], hwv, by rw [hkept w (by simp [hw]), hw']⟩
  · have hassoc : order ++ [u] ++ (queue ++ new) = (order ++ u :: queue) ++ new := by simp
    rw [hassoc]
    refine pairwise_append.2 ⟨?_, ?_, ?_⟩
    · refine h.sorted.imp_of_mem fun {a b} ha hb hab => ?_
      rwa [hkept a ha, hkept b hb]
    · refine pairwise_of_forall_mem_list fun a ha b hb => ?_
      rw [hraised a ha, hraised b hb]
    · intro a ha b hb
      rw [hkept a ha, hraised b hb]
      exact hceil a (hs.sub a ha)
  · intro a ha b hb
    have h₁ := hqueue a ha
    have h₂ := hqueue b hb
    omega

section
variable {tier : α → Nat} (h : Tiered V E order [] tier) (hE : ∀ u v, E u v → u ∈ V ∧ v ∈ V)
  (hall : ∀ v ∈ V, v ∈ order)
include h hE hall
omit [DecidableEq α] [DecidableRel E]

theorem Tiered.lt_of_edge {u v : α} (he : E u v) : tier u < tier v :=
  h.above u (hall u (hE u v he).1) v (hE u v he).2 he

theorem Tiered.lt_of_transGen {u v : α} (he : TransGen E u v) : tier u < tier v := by
  induction he with
  | single he => exact h.lt_of_edge hE hall he
  | tail _ he ih => exact ih.trans (h.lt_of_edge hE hall he)

/-- When all vertices are ordered, the tier of a vertex is the length of a longest path to it. -/
theorem Tiered.isGreatest {v : α} (hv : v ∈ V) : IsGreatest {n | PathTo E n v} (tier v) := by
  constructor
  · have hpath : ∀ n, ∀ w ∈ V, tier w = n → PathTo E n w := by
      intro n
      induction n with
      | zero => exact fun w _ _ => .nil w
      | succ n ih =>
        intro w hw htier
        rcases h.attained w hw with h0 | ⟨u, -, he, heq⟩
        · omega
        · exact .snoc (ih u (hE u w he).1 (by omega)) he
    exact hpath _ v hv rfl
  · intro n hn
    induction hn with
    | nil => exact Nat.zero_le _
    | snoc _ he ih =>
      have := ih (hE _ _ he).1
      have := h.lt_of_edge hE hall he
      omega

end

end Kahn
