import MakeInitrd.SortServices.Sorted

/-!
# Tiers

`order_services` prints a tier with every service. A successor of the service that has just been
ordered is moved to the tier above it if it is not there yet; when it gets into the queue, its tier
is final, since the last of the services before it is on the highest tier (`Kahn.Tiered`).
-/

namespace MakeInitrd.SortServices

open CMem Relation
open Words (text)

section
variable (svcs : List Service) (level : Bytes) (ty : LvlType) (deps : Deps)

/-- Service `u` has to come before `v`, by the arrays `depsN` of the active services. -/
def Constrains (u v : Nat) : Prop :=
  active svcs level ty u ∧ active svcs level ty v ∧
    match ty with
    | .S => u ∈ deps v
    | .K => v ∈ deps u

end

variable {svcs : List Service} {level : Bytes} {ty : LvlType} {deps : Deps}

theorem edgeList_eq_constrains :
    (fun u v => (u, v) ∈ edgeList ty (actives svcs level ty) deps) =
      Constrains svcs level ty deps := by
  funext u v
  rw [mem_edgeList, mem_actives, mem_actives]
  rfl

theorem tier_relax_foldl {vs : List Nat} {u : Nat} (hu : u ∉ vs) (s : Sorter) (v : Nat) :
    (vs.foldl (relax u) s).tier v = if v ∈ vs then max (s.tier v) (s.tier u + 1) else s.tier v := by
  induction vs generalizing s with
  | nil => simp
  | cons w vs ih =>
    obtain ⟨huw, hu⟩ := not_or.1 (List.mem_cons.not.1 hu)
    have hrelax :
        ∀ x, (relax u s w).tier x = if x = w then max (s.tier x) (s.tier u + 1) else s.tier x := by
      intro x
      simp only [relax]
      by_cases hx : x = w
      · subst hx
        rw [if_pos rfl]
        split_ifs with hlt
        · simp [max_eq_right hlt.le]
        · simp [max_eq_left (Nat.le_of_not_lt hlt)]
      · split_ifs <;> simp [hx]
    rw [List.foldl_cons, ih hu, hrelax, hrelax u, if_neg huw]
    by_cases hv : v = w
    · subst hv
      by_cases hmem : v ∈ vs <;> simp [hmem]
    · simp [hv]

theorem tiered_round {act : List Nat} {ps : List (Nat × Nat)} (hps : ps.Nodup)
    (hact : ∀ u v, (u, v) ∈ ps → v ∈ act) {s : Sorter} {u : Nat} {queue : List Nat}
    (hs : Kahn.Sorting act.toFinset (fun u v => (u, v) ∈ ps) s.order (u :: queue) s.inDegree)
    (h : Kahn.Tiered act.toFinset (fun u v => (u, v) ∈ ps) s.order (u :: queue) s.tier) :
    let s' := (successorsOf ps u).foldl (relax u) { s with queue := queue, order := s.order ++ [u] }
    Kahn.Tiered act.toFinset (fun u v => (u, v) ∈ ps) s'.order s'.queue s'.tier := by
  obtain ⟨ho, -, hqueue⟩ := relax_foldl (nodup_successorsOf hps u) u
    { s with queue := queue, order := s.order ++ [u] }
  have hself : u ∉ successorsOf ps u := by
    intro hmem
    have huo := hs.mem_order_of_edge (v := u) (by simp) (hs.sub u (by simp))
      (mem_successorsOf.1 hmem)
    have := hs.nodup
    grind
  simp only [ho, hqueue]
  refine Kahn.Tiered.pop hs h (fun v => ?_) fun v hv => ?_
  · rw [tier_relax_foldl hself]
    simp only [mem_successorsOf]
  · have hmem := mem_successorsOf.1 (List.mem_of_mem_filter hv)
    exact ⟨List.mem_toFinset.2 (hact u v hmem), hmem⟩

/-- Without a cycle, the tier that is printed with a service is the number of edges of a longest
path of constraints to it. The tiers do not go down, and services of one tier are not ordered by the
constraints. -/
theorem orderServices_tiers (svcs : List Service) (level : Bytes) (ty : LvlType) (deps : Deps)
    (hacyclic : ¬∃ i, TransGen (Constrains svcs level ty deps) i i) :
    ∃ (order : List Nat) (tier : Nat → Nat),
      orderServices svcs level ty deps =
        .ok (order.map fun i => ⟨level, ty, tier i, nameOf svcs i⟩) ∧
        order.Perm (actives svcs level ty) ∧
        (∀ v ∈ order, IsGreatest {n | Kahn.PathTo (Constrains svcs level ty deps) n v} (tier v)) ∧
        order.Pairwise (tier · ≤ tier ·) ∧
        ∀ u ∈ order, ∀ v ∈ order, tier u = tier v →
          ¬TransGen (Constrains svcs level ty deps) u v := by
  obtain ⟨hqueue, -, htier⟩ := sortServices_inv svcs level ty deps
    (P := fun s => Kahn.Tiered (actives svcs level ty).toFinset
      (fun u v => (u, v) ∈ edgeList ty (actives svcs level ty) deps) s.order s.queue s.tier)
    (fun queue _ => Kahn.Tiered.init _ _ queue)
    (fun s u queue hs h => tiered_round (nodup_edgeList ty (nodup_actives svcs level ty) deps)
      (fun u v he => (mem_edgeList.1 he).2.1) hs h)
  rw [hqueue] at htier
  have hE : ∀ u v, (u, v) ∈ edgeList ty (actives svcs level ty) deps →
      u ∈ (actives svcs level ty).toFinset ∧ v ∈ (actives svcs level ty).toFinset :=
        fun u v he => by
    simpa using (mem_edgeList.1 he).imp_right And.left
  have hlen : ¬(sortServices svcs level ty deps).order.length < (actives svcs level ty).length := by
    rw [length_order_lt_iff, edgeList_eq_constrains]
    exact hacyclic
  have hmem := mem_order_iff hlen
  have hall : ∀ v ∈ (actives svcs level ty).toFinset, v ∈ (sortServices svcs level ty deps).order :=
    fun v hv => (hmem v).2 (List.mem_toFinset.1 hv)
  refine ⟨_, (sortServices svcs level ty deps).tier,
    by rw [orderServices, if_neg hlen], order_perm hlen, ?_, ?_, ?_⟩
  · intro v hv
    rw [← edgeList_eq_constrains]
    exact htier.isGreatest hE hall (List.mem_toFinset.2 ((hmem v).1 hv))
  · simpa using htier.sorted
  · intro u _ v _ heq hpath
    rw [← edgeList_eq_constrains] at hpath
    exact absurd heq (htier.lt_of_transGen hE hall hpath).ne

/-- Service `a` requires `b`: `b` is on tier 0 and `a` on tier 1. -/
theorem orderServices_tiers_two :
    (¬∃ i, TransGen (Constrains requiring (text "3") .S fun i => if i = 0 then [1] else []) i i) ∧
      ∃ (order : List Nat) (tier : Nat → Nat),
        orderServices requiring (text "3") .S (fun i => if i = 0 then [1] else []) =
            .ok (order.map fun i => ⟨text "3", .S, tier i, nameOf requiring i⟩) ∧
          order.Pairwise (tier · ≤ tier ·) := by
  have hacyclic :
      ¬∃ i, TransGen (Constrains requiring (text "3") .S fun i => if i = 0 then [1] else [])
        i i := by
    rintro ⟨i, hi⟩
    have hlt :
        ∀ u v, TransGen (Constrains requiring (text "3") .S fun i => if i = 0 then [1] else [])
          u v → v < u := by
      have hedge :
          ∀ u v, Constrains requiring (text "3") .S (fun i => if i = 0 then [1] else [])
            u v → v < u := by
        rintro u v ⟨-, -, hmem⟩
        by_cases hv : v = 0 <;> simp [hv] at hmem
        omega
      intro u v h
      induction h with
      | single he => exact hedge _ _ he
      | tail _ he ih => exact (hedge _ _ he).trans ih
    exact lt_irrefl _ (hlt i i hi)
  obtain ⟨order, tier, hok, -, -, hsorted, -⟩ := orderServices_tiers requiring
    (text "3") .S _ hacyclic
  exact ⟨hacyclic, order, tier, hok, hsorted⟩

end MakeInitrd.SortServices
