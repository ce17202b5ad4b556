import Mathlib.Data.Finset.Card

/-!
# Depth-first search

A recursive search marks a node by its key when it enters it, goes on to the successors and does not
enter a node twice. `Visits` says what a part of such a search does: from some targets it enters
some nodes, in this order. Parts that follow each other compose (`Visits.trans`), and a search from
no marks enters exactly the nodes that can be reached (`Visits.mem_iff_reach`), each once.
-/

namespace Dfs

open List

universe u v

/-- A graph whose nodes are marked by keys. -/
structure Graph (ν : Type u) (κ : Type v) where
  key : ν → κ
  succ : ν → Set ν

variable {ν : Type u} {κ : Type v} (G : Graph ν κ)

/-- What can be reached from the targets. -/
inductive Graph.Reach (A : Set ν) : ν → Prop
  | target {m : ν} : m ∈ A → Reach A m
  | step {m m' : ν} : Reach A m → m' ∈ G.succ m → Reach A m'

/-- A part of the search: with the marks `seen` it starts from the targets `A`, enters `ms` and
leaves the marks `seen'`. -/
structure Visits (A : Set ν) (seen seen' : List κ) (ms : List ν) : Prop where
  mem_seen (k : κ) : k ∈ seen' ↔ k ∈ seen ∨ k ∈ ms.map G.key
  nodup : (ms.map G.key).Nodup
  fresh (m : ν) : m ∈ ms → G.key m ∉ seen
  reach (m : ν) : m ∈ ms → G.Reach A m
  closed (m m' : ν) : m ∈ ms → m' ∈ G.succ m → G.key m' ∈ seen'
  targets (m : ν) : m ∈ A → G.key m ∈ seen'

variable {G} {A B : Set ν} {seen seen₁ seen' : List κ} {ms ms' : List ν} {m : ν}

theorem Graph.Reach.mono (h : G.Reach A m) (hsub : A ⊆ B) : G.Reach B m := by
  induction h with
  | target hm => exact .target (hsub hm)
  | step _ hsucc ih => exact .step ih hsucc

theorem Graph.Reach.of_succ {m' : ν} (h : G.Reach (G.succ m) m') : G.Reach {m} m' := by
  induction h with
  | target hm => exact .step (.target rfl) hm
  | step _ hsucc ih => exact .step ih hsucc

namespace Visits

theorem nil (seen : List κ) : Visits G ∅ seen seen [] where
  mem_seen _ := by simp
  nodup := nodup_nil
  fresh _ hm := nomatch hm
  reach _ hm := nomatch hm
  closed _ _ hm := nomatch hm
  targets _ hm := hm.elim

theorem marked (h : G.key m ∈ seen) : Visits G {m} seen seen [] where
  mem_seen _ := by simp
  nodup := nodup_nil
  fresh _ hm := nomatch hm
  reach _ hm := nomatch hm
  closed _ _ hm := nomatch hm
  targets m' hm' := by
    cases Set.mem_singleton_iff.1 hm'
    exact h

theorem enter (hm : G.key m ∉ seen) (h : Visits G (G.succ m) (G.key m :: seen) seen' ms) :
    Visits G {m} seen seen' (m :: ms) where
  mem_seen k := by
    rw [h.mem_seen, map_cons, mem_cons, mem_cons]
    tauto
  nodup := by
    refine nodup_cons.2 ⟨fun hmem => ?_, h.nodup⟩
    obtain ⟨m', hm', hkey⟩ := mem_map.1 hmem
    exact h.fresh m' hm' (hkey ▸ mem_cons_self)
  fresh m' hm' := by
    rcases mem_cons.1 hm' with rfl | hm'
    · exact hm
    · exact fun hseen => h.fresh m' hm' (mem_cons_of_mem _ hseen)
  reach m' hm' := by
    rcases mem_cons.1 hm' with rfl | hm'
    · exact .target rfl
    · exact (h.reach m' hm').of_succ
  closed m' m'' hm' hsucc := by
    rcases mem_cons.1 hm' with rfl | hm'
    · exact h.targets m'' hsucc
    · exact h.closed m' m'' hm' hsucc
  targets m' hm' := by
    cases Set.mem_singleton_iff.1 hm'
    exact (h.mem_seen _).2 (.inl mem_cons_self)

theorem seen_subset (h : Visits G A seen seen' ms) {k : κ} (hk : k ∈ seen) : k ∈ seen' :=
  (h.mem_seen k).2 (.inl hk)

theorem trans (h : Visits G A seen seen₁ ms) (h' : Visits G B seen₁ seen' ms') :
    Visits G (A ∪ B) seen seen' (ms ++ ms') where
  mem_seen k := by
    rw [h'.mem_seen, h.mem_seen, map_append, mem_append, or_assoc]
  nodup := by
    rw [map_append]
    refine nodup_append'.2 ⟨h.nodup, h'.nodup, fun k hk hk' => ?_⟩
    obtain ⟨m, hm, rfl⟩ := mem_map.1 hk'
    exact h'.fresh m hm ((h.mem_seen _).2 (.inr hk))
  fresh m hm hseen := by
    rcases mem_append.1 hm with hm | hm
    · exact h.fresh m hm hseen
    · exact h'.fresh m hm (h.seen_subset hseen)
  reach m hm := by
    rcases mem_append.1 hm with hm | hm
    · exact (h.reach m hm).mono Set.subset_union_left
    · exact (h'.reach m hm).mono Set.subset_union_right
  closed m m' hm hsucc := by
    rcases mem_append.1 hm with hm | hm
    · exact h'.seen_subset (h.closed m m' hm hsucc)
    · exact h'.closed m m' hm hsucc
  targets m hm := by
    rcases hm with hm | hm
    · exact h'.seen_subset (h.targets m hm)
    · exact h'.targets m hm

theorem mem_iff_reach (h : Visits G A [] seen' ms) (hinj : Set.InjOn G.key {m | G.Reach A m}) :
    m ∈ ms ↔ G.Reach A m := by
  refine ⟨h.reach m, fun hm => ?_⟩
  -- a node whose key is marked has been entered, since no other node has its key
  have hentered {m : ν} (hm : G.Reach A m) (hkey : G.key m ∈ seen') : m ∈ ms := by
    rcases (h.mem_seen _).1 hkey with hnil | hmap
    · cases hnil
    · obtain ⟨m', hm', heq⟩ := mem_map.1 hmap
      cases hinj (h.reach m' hm') hm heq
      exact hm'
  induction hm with
  | target hA => exact hentered (.target hA) (h.targets _ hA)
  | step hreach hsucc ih => exact hentered (.step hreach hsucc) (h.closed _ _ ih hsucc)

section
variable [DecidableEq κ] {U : Finset ν}

/-- The number of nodes of `U` that are not marked. -/
def left (G : Graph ν κ) (U : Finset ν) (seen : List κ) : Nat :=
  (U.filter fun m => G.key m ∉ seen).card

theorem left_cons (hU : m ∈ U) (hm : G.key m ∉ seen) :
    left G U (G.key m :: seen) < left G U seen := by
  refine Finset.card_lt_card (Finset.ssubset_iff_of_subset ?_ |>.2 ⟨m, ?_, ?_⟩)
  · intro m' hm'
    simp only [Finset.mem_filter, mem_cons, not_or] at hm' ⊢
    exact ⟨hm'.1, hm'.2.2⟩
  · exact Finset.mem_filter.2 ⟨hU, hm⟩
  · simp

theorem left_le (h : Visits G A seen seen' ms) : left G U seen' ≤ left G U seen := by
  refine Finset.card_le_card fun m hm => ?_
  simp only [Finset.mem_filter] at hm ⊢
  exact ⟨hm.1, fun hseen => hm.2 (h.seen_subset hseen)⟩

end

end Visits

end Dfs
