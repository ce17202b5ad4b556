import MakeInitrd.Lib.Kahn
import MakeInitrd.SortServices.Order

/-!
# `order_services` sorts the services

The graph that `order_services` builds has an edge for every dependence, once (`edges_eq`), so its
loop is Kahn's algorithm on the constraints of the active services. It ends with an empty queue
(`sortLoop_inv`) and leaves services out if and only if there is a cycle (`sortRunlevel_correct`).
-/

namespace MakeInitrd.SortServices

open CMem Relation List
open Words (text)

/-! ## The graph -/

/-- What `addEdges` takes of the dependences of a service: each active one, once -/
def freshDeps (act : List Nat) : List Nat → List Nat → List Nat
  | [], _ => []
  | dep :: deps, seen =>
    if dep ∈ act ∧ dep ∉ seen then dep :: freshDeps act deps (dep :: seen)
      else freshDeps act deps seen

theorem mem_freshDeps {act deps seen : List Nat} {d : Nat} :
    d ∈ freshDeps act deps seen ↔ d ∈ deps ∧ d ∈ act ∧ d ∉ seen := by
  induction deps generalizing seen with
  | nil => simp [freshDeps]
  | cons dep deps ih =>
    rw [freshDeps]
    split_ifs with h
    · simp only [mem_cons, ih]
      by_cases hd : d = dep
      · subst hd; simp [h]
      · simp [hd]
    · rw [ih]
      by_cases hd : d = dep
      · subst hd; tauto
      · simp [hd]

theorem nodup_freshDeps (act deps seen : List Nat) : (freshDeps act deps seen).Nodup := by
  induction deps generalizing seen with
  | nil => exact nodup_nil
  | cons dep deps ih =>
    rw [freshDeps]
    split_ifs
    · exact nodup_cons.2 ⟨fun h => (mem_freshDeps.1 h).2.2 (by simp), ih _⟩
    · exact ih _

/-- The edge for a dependence: the service that comes first, and the other one -/
def edgeOf (ty : LvlType) (i dep : Nat) : Nat × Nat :=
  match ty with
  | .S => (dep, i)
  | .K => (i, dep)

/-- The edges in the order in which they are added -/
def edgeList (ty : LvlType) (act : List Nat) (deps : Deps) : List (Nat × Nat) :=
  act.flatMap fun i => (freshDeps act (deps i) []).map (edgeOf ty i)

def Edges.add (e : Edges) (p : Nat × Nat) : Edges :=
  { inDegree := Function.update e.inDegree p.2 (e.inDegree p.2 + 1)
    successors := Function.update e.successors p.1 (e.successors p.1 ++ [p.2]) }

theorem addEdge_eq (ty : LvlType) (i dep : Nat) (e : Edges) :
    addEdge ty i e dep = e.add (edgeOf ty i dep) := by
  cases ty <;> rfl

theorem addEdges_eq (svcs : List Service) (level : Bytes) (ty : LvlType) (i : Nat)
    (deps seen : List Nat) (e : Edges) :
    addEdges svcs level ty i deps seen e =
      ((freshDeps (actives svcs level ty) deps seen).map (edgeOf ty i)).foldl Edges.add e := by
  induction deps generalizing seen e with
  | nil => rfl
  | cons dep deps ih =>
    rw [addEdges, freshDeps]
    split_ifs
    · rw [ih, addEdge_eq]; rfl
    · exact ih _ _

theorem edges_eq (svcs : List Service) (level : Bytes) (ty : LvlType) (deps : Deps) :
    edges svcs level ty deps =
      (edgeList ty (actives svcs level ty) deps).foldl Edges.add ⟨fun _ => 0, fun _ => []⟩ := by
  rw [edges, edgeList, foldl_flatMap]
  simp only [addEdges_eq]

theorem inDegree_foldl (ps : List (Nat × Nat)) (e : Edges) (v : Nat) :
    (ps.foldl Edges.add e).inDegree v = e.inDegree v + (ps.filter (·.2 = v)).length := by
  induction ps generalizing e with
  | nil => simp
  | cons p ps ih =>
    rw [foldl_cons, ih, Edges.add, filter_cons]
    by_cases h : p.2 = v
    · subst h
      simp
      omega
    · simp [h, Function.update_of_ne (Ne.symm h)]

theorem successors_foldl (ps : List (Nat × Nat)) (e : Edges) (u : Nat) :
    (ps.foldl Edges.add e).successors u = e.successors u ++ (ps.filter (·.1 = u)).map (·.2) := by
  induction ps generalizing e with
  | nil => simp
  | cons p ps ih =>
    rw [foldl_cons, ih, Edges.add, filter_cons]
    by_cases h : p.1 = u
    · subst h
      simp
    · simp [h, Function.update_of_ne (Ne.symm h)]

theorem mem_edgeList {ty : LvlType} {act : List Nat} {deps : Deps} {u v : Nat} :
    (u, v) ∈ edgeList ty act deps ↔ u ∈ act ∧ v ∈ act ∧
      match ty with
      | .S => u ∈ deps v
      | .K => v ∈ deps u := by
  simp only [edgeList, mem_flatMap, mem_map, mem_freshDeps, not_mem_nil, not_false_iff, and_true]
  cases ty <;> simp only [edgeOf, Prod.mk.injEq] <;> grind

theorem nodup_edgeList (ty : LvlType) {act : List Nat} (hact : act.Nodup) (deps : Deps) :
    (edgeList ty act deps).Nodup := by
  refine nodup_flatMap.2 ⟨fun i _ => ?_, ?_⟩
  · refine (nodup_freshDeps _ _ _).map fun a b h => ?_
    cases ty <;> simpa [edgeOf] using h
  · refine hact.imp fun {i j} hne => ?_
    intro p hp hq
    obtain ⟨a, -, rfl⟩ := mem_map.1 hp
    obtain ⟨b, -, h⟩ := mem_map.1 hq
    cases ty <;> simp [edgeOf] at h <;> omega

/-! ## The loop -/

section
variable {ps : List (Nat × Nat)} {act : List Nat}

theorem card_filter_edges (hps : ps.Nodup) (hact : ∀ u v, (u, v) ∈ ps → u ∈ act) (v : Nat) :
    (ps.filter (·.2 = v)).length = (act.toFinset.filter fun u => (u, v) ∈ ps).card := by
  have hnodup : ((ps.filter (·.2 = v)).map (·.1)).Nodup := by
    refine List.Nodup.map_on ?_ (hps.filter _)
    rintro ⟨a, b⟩ ha ⟨c, d⟩ hc h
    simp_all
  rw [← length_map (·.1), ← toFinset_card_of_nodup hnodup]
  congr 1
  ext u
  simp only [mem_toFinset, mem_map, mem_filter, Finset.mem_filter, decide_eq_true_eq,
    Prod.exists, exists_and_right, exists_eq_right]
  exact ⟨fun hb => ⟨hact _ _ hb, hb⟩, And.right⟩

/-- The successors of a service lose one of the edges into them, and those that have lost all get
into the queue. -/
theorem relax_foldl {vs : List Nat} (hvs : vs.Nodup) (u : Nat) (s : Sorter) :
    (vs.foldl (relax u) s).order = s.order ∧
      (vs.foldl (relax u) s).inDegree = (fun v => s.inDegree v - if v ∈ vs then 1 else 0) ∧
      (vs.foldl (relax u) s).queue = s.queue ++ vs.filter fun v => s.inDegree v - 1 = 0 := by
  induction vs generalizing s with
  | nil => simp
  | cons v vs ih =>
    obtain ⟨hv, hvs⟩ := nodup_cons.1 hvs
    obtain ⟨h₁, h₂, h₃⟩ := ih hvs (relax u s v)
    rw [foldl_cons]
    refine ⟨h₁, ?_, ?_⟩
    · rw [h₂]
      funext w
      by_cases hw : w = v
      · subst hw
        simp [relax, hv]
      · simp [relax, hw]
    · rw [h₃]
      have hrest : (vs.filter fun w => (relax u s v).inDegree w - 1 = 0) = vs.filter fun w =>
          s.inDegree w - 1 = 0 := by
        refine filter_congr fun w hw => ?_
        have hne : w ≠ v := fun h => hv (h ▸ hw)
        simp [relax, Function.update_of_ne hne]
      rw [hrest, filter_cons]
      by_cases hd : s.inDegree v - 1 = 0 <;> simp [relax, hd]

/-- The successors of a service in a list of edges -/
def successorsOf (ps : List (Nat × Nat)) (u : Nat) : List Nat := (ps.filter (·.1 = u)).map (·.2)

theorem mem_successorsOf {u v : Nat} : v ∈ successorsOf ps u ↔ (u, v) ∈ ps := by
  simp [successorsOf]

theorem nodup_successorsOf (hps : ps.Nodup) (u : Nat) : (successorsOf ps u).Nodup := by
  refine List.Nodup.map_on ?_ (hps.filter _)
  rintro ⟨a, b⟩ ha ⟨c, d⟩ hc h
  simp_all

theorem sorting_round (hps : ps.Nodup) (hact : ∀ u v, (u, v) ∈ ps → v ∈ act) {s : Sorter} {u : Nat}
    {queue : List Nat}
    (h : Kahn.Sorting act.toFinset (fun u v => (u, v) ∈ ps) s.order (u :: queue) s.inDegree) :
    let s' := (successorsOf ps u).foldl (relax u) { s with queue := queue, order := s.order ++ [u] }
    Kahn.Sorting act.toFinset (fun u v => (u, v) ∈ ps) s'.order s'.queue s'.inDegree := by
  obtain ⟨ho, hd, hqueue⟩ := relax_foldl (nodup_successorsOf hps u) u
    { s with queue := queue, order := s.order ++ [u] }
  simp only [ho, hqueue]
  refine h.pop ?_ ((nodup_successorsOf hps u).filter _) ?_
  · intro v _
    simp only [hd, mem_successorsOf]
  · intro v
    simp only [hd, mem_filter, mem_successorsOf, decide_eq_true_eq, mem_toFinset]
    constructor
    · rintro ⟨he, hz⟩
      exact ⟨hact u v he, he, by simpa [he] using hz⟩
    · rintro ⟨-, he, hz⟩
      exact ⟨he, by simpa [he] using hz⟩

/-- The loop keeps what Kahn's algorithm keeps and whatever else a round keeps, and it ends when
there are as many rounds as services. -/
theorem sortLoop_inv (hps : ps.Nodup) (hact : ∀ u v, (u, v) ∈ ps → v ∈ act) {P : Sorter → Prop}
    (hP : ∀ (s : Sorter) (u : Nat) (queue : List Nat),
      Kahn.Sorting act.toFinset (fun u v => (u, v) ∈ ps) s.order (u :: queue) s.inDegree →
      P { s with queue := u :: queue } →
      P ((successorsOf ps u).foldl (relax u) { s with queue := queue, order := s.order ++ [u] }))
    (fuel : Nat) {s : Sorter}
    (h : Kahn.Sorting act.toFinset (fun u v => (u, v) ∈ ps) s.order s.queue s.inDegree)
    (hfuel : act.toFinset.card < fuel + s.order.length) (hs : P s) :
    let s' := sortLoop (successorsOf ps) fuel s
    s'.queue = [] ∧ Kahn.Sorting act.toFinset (fun u v => (u, v) ∈ ps) s'.order [] s'.inDegree ∧
      P s' := by
  induction fuel generalizing s with
  | zero =>
    have hle : (s.order ++ s.queue).length ≤ act.toFinset.card := by
      rw [← toFinset_card_of_nodup h.nodup]
      exact Finset.card_le_card fun v hv => h.sub v (mem_toFinset.1 hv)
    rw [length_append] at hle
    omega
  | succ fuel ih =>
    rw [sortLoop]
    cases hq : s.queue with
    | nil =>
      rw [hq] at h
      exact ⟨hq, h, hs⟩
    | cons u queue =>
      rw [hq] at h
      refine ih (sorting_round hps hact h) ?_ (hP s u queue h (by rw [← hq]; exact hs))
      rw [(relax_foldl (nodup_successorsOf hps u) u _).1, length_append, length_singleton]
      omega

end

/-! ## The result -/

section
variable (svcs : List Service) (level : Bytes) (ty : LvlType)

/-- Service `u` has to come before `v`: a service is started after those it depends on and stopped
before them. -/
def Precedes (u v : Nat) : Prop :=
  match ty with
  | .S => DependsOn svcs level ty v u
  | .K => DependsOn svcs level ty u v

end

variable {svcs : List Service} {level : Bytes} {ty : LvlType}

theorem mem_actives {i : Nat} : i ∈ actives svcs level ty ↔ active svcs level ty i := by
  simp only [actives, mem_filter, mem_range, and_iff_right_iff_imp]
  exact lt_of_active

theorem nodup_actives (svcs : List Service) (level : Bytes) (ty : LvlType) :
    (actives svcs level ty).Nodup := nodup_range.filter _

theorem mem_edgeList_iff {deps : Deps} (hdeps : ∀ i j, j ∈ deps i ↔ DependsOn svcs level ty i j)
    {u v : Nat} :
    (u, v) ∈ edgeList ty (actives svcs level ty) deps ↔ Precedes svcs level ty u v := by
  rw [mem_edgeList, mem_actives, mem_actives]
  cases ty with
  | S =>
    simp only [hdeps, Precedes]
    exact ⟨fun h => h.2.2, fun h => ⟨h.active.2, h.active.1, h⟩⟩
  | K =>
    simp only [hdeps, Precedes]
    exact ⟨fun h => h.2.2, fun h => ⟨h.active.1, h.active.2, h⟩⟩

/-- The sort ends with an empty queue, as Kahn's algorithm on the constraints, and with whatever
else a round keeps. -/
theorem sortServices_inv (svcs : List Service) (level : Bytes) (ty : LvlType) (deps : Deps)
    {P : Sorter → Prop} (hinit : ∀ queue deg, P ⟨queue, [], deg, fun _ => 0⟩)
    (hP : ∀ (s : Sorter) (u : Nat) (queue : List Nat),
      Kahn.Sorting (actives svcs level ty).toFinset
        (fun u v => (u, v) ∈ edgeList ty (actives svcs level ty) deps)
        s.order (u :: queue) s.inDegree →
      P { s with queue := u :: queue } →
      P ((successorsOf (edgeList ty (actives svcs level ty) deps) u).foldl (relax u)
        { s with queue := queue, order := s.order ++ [u] })) :
    let ps := edgeList ty (actives svcs level ty) deps
    let s := sortServices svcs level ty deps
    s.queue = [] ∧
      Kahn.Sorting (actives svcs level ty).toFinset (fun u v => (u, v) ∈ ps) s.order [] s.inDegree ∧
        P s := by
  intro ps s
  have hnodup : ps.Nodup := nodup_edgeList ty (nodup_actives svcs level ty) deps
  have hsucc : (edges svcs level ty deps).successors = successorsOf ps := by
    funext u
    rw [edges_eq, successors_foldl]
    rfl
  have hdeg (v : Nat) : (edges svcs level ty deps).inDegree v =
      ((actives svcs level ty).toFinset.filter fun u => (u, v) ∈ ps).card := by
    rw [edges_eq, inDegree_foldl, ← card_filter_edges hnodup fun u v h => (mem_edgeList.1 h).1]
    simp
    rfl
  have hloop := sortLoop_inv hnodup (fun u v h => (mem_edgeList.1 h).2.1) hP
    ((actives svcs level ty).length + 1)
    (s := ⟨(actives svcs level ty).filter ((edges svcs level ty deps).inDegree · = 0), [],
      (edges svcs level ty deps).inDegree, fun _ => 0⟩)
    (Kahn.Sorting.init (fun v _ => hdeg v) ((nodup_actives svcs level ty).filter _) (by simp))
    (by rw [toFinset_card_of_nodup (nodup_actives svcs level ty)]; simp) (hinit _ _)
  have : s = sortLoop (successorsOf ps) ((actives svcs level ty).length + 1)
      ⟨(actives svcs level ty).filter ((edges svcs level ty deps).inDegree · = 0), [],
        (edges svcs level ty deps).inDegree, fun _ => 0⟩ := by
    rw [← hsucc]
    rfl
  rw [this]
  exact hloop

theorem sortServices_sorting (svcs : List Service) (level : Bytes) (ty : LvlType) (deps : Deps) :
    let ps := edgeList ty (actives svcs level ty) deps
    let s := sortServices svcs level ty deps
    Kahn.Sorting (actives svcs level ty).toFinset (fun u v => (u, v) ∈ ps) s.order [] s.inDegree :=
  (sortServices_inv svcs level ty deps (P := fun _ => True) (fun _ _ => trivial)
    fun _ _ _ _ _ => trivial).2.1

theorem length_order_lt_iff (svcs : List Service) (level : Bytes) (ty : LvlType) (deps : Deps) :
    (sortServices svcs level ty deps).order.length < (actives svcs level ty).length ↔
      ∃ i, TransGen (fun u v => (u, v) ∈ edgeList ty (actives svcs level ty) deps) i i := by
  have hcard : (actives svcs level ty).toFinset.card = (actives svcs level ty).length :=
    toFinset_card_of_nodup (nodup_actives svcs level ty)
  rw [← hcard]
  exact (sortServices_sorting svcs level ty deps).length_lt_iff fun u v he => by
    simpa using (mem_edgeList.1 he).imp_right And.left

theorem mem_order_iff {deps : Deps}
    (h : ¬(sortServices svcs level ty deps).order.length < (actives svcs level ty).length)
    (v : Nat) :
    v ∈ (sortServices svcs level ty deps).order ↔ v ∈ actives svcs level ty := by
  have hcard : (actives svcs level ty).toFinset.card = (actives svcs level ty).length :=
    toFinset_card_of_nodup (nodup_actives svcs level ty)
  simpa using (sortServices_sorting svcs level ty deps).mem_iff_of_length
    (hcard ▸ Nat.le_of_not_lt h) v

theorem order_perm {deps : Deps}
    (h : ¬(sortServices svcs level ty deps).order.length < (actives svcs level ty).length) :
    (sortServices svcs level ty deps).order.Perm (actives svcs level ty) := by
  have hnodup : (sortServices svcs level ty deps).order.Nodup := by
    simpa using (sortServices_sorting svcs level ty deps).nodup
  rw [perm_ext_iff_of_nodup hnodup (nodup_actives svcs level ty)]
  exact mem_order_iff h

theorem edgeList_eq_precedes {deps : Deps}
    (hdeps : ∀ i j, j ∈ deps i ↔ DependsOn svcs level ty i j) :
    (fun u v => (u, v) ∈ edgeList ty (actives svcs level ty) deps) = Precedes svcs level ty := by
  funext u v
  exact propext (mem_edgeList_iff hdeps)

/-- The services can be sorted if and only if the names are in order and the constraints have no
cycle. -/
theorem sortRunlevel_isOk_iff : (sortRunlevel svcs level ty).isOk ↔
      WellNamed svcs level ty ∧ ¬∃ i, TransGen (Precedes svcs level ty) i i := by
  by_cases h : WellNamed svcs level ty
  · obtain ⟨deps, hok, hdeps⟩ := createDeps_ok h
    have hrun : sortRunlevel svcs level ty = orderServices svcs level ty deps := by
      rw [sortRunlevel, hok]
      rfl
    rw [hrun, orderServices, ← edgeList_eq_precedes hdeps, ← length_order_lt_iff]
    split_ifs with hlt
    · simp [hlt, Except.isOk, Except.toBool]
    · simp [hlt, h, Except.isOk, Except.toBool]
  · have hfail := mt wellNamed_iff.2 h
    rw [sortRunlevel]
    cases hdeps : createDeps svcs level ty with
    | ok deps => simp [hdeps, Except.isOk, Except.toBool] at hfail
    | error e =>
      refine ⟨fun hok => ?_, fun hw => absurd hw.1 h⟩
      cases hok

/-- If the names are in order, the services are sorted unless the constraints have a cycle, which is
reported. -/
theorem sortRunlevel_correct (svcs : List Service) (level : Bytes) (ty : LvlType)
    (h : WellNamed svcs level ty) :
    ((∃ names, sortRunlevel svcs level ty = .error (.loop names)) ↔ ∃ i,
      TransGen (Precedes svcs level ty) i i) ∧
      ((¬∃ i, TransGen (Precedes svcs level ty) i i) → ∃ (order : List Nat) (tier : Nat → Nat),
        sortRunlevel svcs level ty = .ok (order.map fun i => ⟨level, ty, tier i, nameOf svcs i⟩) ∧
          order.Perm (actives svcs level ty) ∧
          ∀ u v, Precedes svcs level ty u v → order.idxOf u < order.idxOf v) := by
  obtain ⟨deps, hok, hdeps⟩ := createDeps_ok h
  have hrun : sortRunlevel svcs level ty = orderServices svcs level ty deps := by
    rw [sortRunlevel, hok]
    rfl
  have hedge := edgeList_eq_precedes hdeps
  rw [hrun, orderServices, ← hedge, ← length_order_lt_iff]
  refine ⟨?_, fun hno => ?_⟩
  · split_ifs with hlen <;> simp [hlen]
  · rw [if_neg hno]
    refine ⟨_, _, rfl, order_perm hno, fun u v hp => ?_⟩
    obtain ⟨hu, hv, -⟩ := mem_edgeList.1 hp
    exact (sortServices_sorting svcs level ty deps).idxOf_lt ((mem_order_iff hno v).2 hv)
      (by simpa using hu) hp

/-- Two services at runlevel 3: `a` requires `b`. -/
def requiring : List Service :=
  [((initService (text "a")).setlist .sLevel [text "3"]).setlist .sRequire [text "b"],
    (initService (text "b")).setlist .sLevel [text "3"]]

theorem sortRunlevel_correct_two :
    WellNamed requiring (text "3") .S ∧ ∃ (order : List Nat) (tier : Nat → Nat),
      sortRunlevel requiring (text "3") .S =
        .ok (order.map fun i => ⟨text "3", .S, tier i, nameOf requiring i⟩) ∧
        order.Perm (actives requiring (text "3") .S) ∧
        ∀ u v, Precedes requiring (text "3") .S u v → order.idxOf u < order.idxOf v := by
  have h : WellNamed requiring (text "3") .S := wellNamed_iff.2 (by decide)
  obtain ⟨hloop, hsorted⟩ := sortRunlevel_correct requiring (text "3") .S h
  refine ⟨h, hsorted fun hcycle => ?_⟩
  obtain ⟨names, herror⟩ := hloop.2 hcycle
  have hok : (sortRunlevel requiring (text "3") .S).isOk = true := by decide
  rw [herror] at hok
  cases hok

end MakeInitrd.SortServices
