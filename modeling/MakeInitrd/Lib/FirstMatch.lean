import Mathlib.Data.List.Basic

/-!
# The first element that satisfies a test

A pointer found by walking a linked list names the first element that passes the walk's test.
`modifyFirst p f` is the assignment through such a pointer, as `eraseP p` is its removal.
-/

namespace List

variable {α β : Type*} {p q : α → Bool} {f : α → α} {g : α → β} {a b : α} {l : List α}

/-- Apply `f` to the first element that satisfies `p`. -/
def modifyFirst (p : α → Bool) (f : α → α) : List α → List α
  | [] => []
  | a :: l => if p a then f a :: l else a :: modifyFirst p f l

theorem map_modifyFirst (h : ∀ a, g (f a) = g a) :
    ∀ (l : List α), (l.modifyFirst p f).map g = l.map g
  | [] => rfl
  | a :: l => by
    rw [modifyFirst]
    split
    · rw [map_cons, map_cons, h]
    · rw [map_cons, map_cons, map_modifyFirst h l]

/-- An update that a projection respects commutes with it. -/
theorem map_modifyFirst_comm {p' : β → Bool} {f' : β → β} (hp : ∀ a, p' (g a) = p a)
    (hf : ∀ a, g (f a) = f' (g a)) :
    ∀ (l : List α), (l.modifyFirst p f).map g = (l.map g).modifyFirst p' f'
  | [] => rfl
  | a :: l => by
    rw [modifyFirst, map_cons, modifyFirst, hp]
    split
    · rw [map_cons, hf]
    · rw [map_cons, map_modifyFirst_comm hp hf l]

theorem modifyFirst_of_find_eq_none (h : l.find? p = none) : l.modifyFirst p f = l := by
  induction l with
  | nil => rfl
  | cons b l ih =>
    rw [find?_eq_none, forall_mem_cons] at h
    rw [modifyFirst, if_neg h.1, ih (find?_eq_none.2 h.2)]

theorem modifyFirst_of_find (h : l.find? p = some a) (f : α → α) :
    ∃ l₁ l₂, l = l₁ ++ a :: l₂ ∧ l.modifyFirst p f = l₁ ++ f a :: l₂ := by
  obtain ⟨ha, l₁, l₂, rfl, hl₁⟩ := find?_eq_some_iff_append.1 h
  refine ⟨l₁, l₂, rfl, ?_⟩
  clear h
  induction l₁ with
  | nil => rw [nil_append, modifyFirst, if_pos ha, nil_append]
  | cons b l₁ ih =>
    rw [forall_mem_cons] at hl₁
    rw [cons_append, modifyFirst, if_neg (by simpa using hl₁.1), ih hl₁.2, cons_append]

/-- An element of the updated list is an old one or the image of one that satisfies the test. -/
theorem mem_modifyFirst (h : b ∈ l.modifyFirst p f) : b ∈ l ∨ ∃ a ∈ l, p a = true ∧ b = f a := by
  cases hfind : l.find? p with
  | none => exact .inl (modifyFirst_of_find_eq_none hfind ▸ h)
  | some a =>
    obtain ⟨l₁, l₂, hl, hm⟩ := modifyFirst_of_find hfind f
    rw [hm, mem_append, mem_cons] at h
    rcases h with h | rfl | h
    · exact .inl (by simp [hl, h])
    · exact .inr ⟨a, mem_of_find?_eq_some hfind, find?_some hfind, rfl⟩
    · exact .inl (by simp [hl, h])

theorem mem_modifyFirst_of_find (h : l.find? p = some b) (ha : a ∈ l) :
    a = b ∨ a ∈ l.modifyFirst p f := by
  obtain ⟨l₁, l₂, hl, hm⟩ := modifyFirst_of_find h f
  rw [hl, mem_append, mem_cons] at ha
  rw [hm, mem_append, mem_cons]
  exact ha.elim (.inr ∘ .inl) (.imp_right (.inr ∘ .inr))

theorem modifyFirst_find (h : l.find? p = some a) : f a ∈ l.modifyFirst p f := by
  obtain ⟨l₁, l₂, -, hm⟩ := modifyFirst_of_find h f
  simp [hm]

theorem mem_modifyFirst_of_mem (h : a ∈ l) :
    a ∈ l.modifyFirst p f ∨ (p a = true ∧ f a ∈ l.modifyFirst p f) := by
  cases hfind : l.find? p with
  | none => exact .inl ((modifyFirst_of_find_eq_none hfind).symm ▸ h)
  | some b =>
    rcases mem_modifyFirst_of_find hfind h with rfl | h
    · exact .inr ⟨find?_some hfind, modifyFirst_find hfind⟩
    · exact .inl h

theorem map_modifyFirst_of_find (h : l.find? p = some a) (hg : g (f a) = g a) :
    (l.modifyFirst p f).map g = l.map g := by
  obtain ⟨l₁, l₂, hl, hm⟩ := modifyFirst_of_find h f
  rw [hm, hl, map_append, map_append, map_cons, map_cons, hg]

theorem modifyFirst_eq_self (h : l.find? p = some a) (hf : f a = a) : l.modifyFirst p f = l := by
  obtain ⟨l₁, l₂, hl, hm⟩ := modifyFirst_of_find h f
  rw [hm, hf, ← hl]

theorem countP_modifyFirst (h : l.find? p = some a) :
    (l.modifyFirst p f).countP q + (if q a then 1 else 0) = l.countP q +
      (if q (f a) then 1 else 0) := by
  obtain ⟨l₁, l₂, hl, hm⟩ := modifyFirst_of_find h f
  rw [hm, hl, countP_append, countP_append, countP_cons, countP_cons]
  omega

/-- A relation between all pairs that survives the assignment on either side survives it. -/
theorem pairwise_modifyFirst {R : α → α → Prop} (hl : ∀ a b, R a b → R (f a) b)
    (hr : ∀ a b, R a b → R a (f b)) (h : l.Pairwise R) : (l.modifyFirst p f).Pairwise R := by
  induction h with
  | nil => exact .nil
  | @cons a l ha hp ih =>
    rw [modifyFirst]
    split
    · exact pairwise_cons.2 ⟨fun b hb => hl a b (ha b hb), hp⟩
    · refine pairwise_cons.2 ⟨fun b hb => ?_, ih⟩
      rcases mem_modifyFirst hb with hb | ⟨c, hc, -, rfl⟩
      · exact ha b hb
      · exact hr a c (ha c hc)

theorem countP_eraseP :
    ∀ (l : List α), (l.eraseP p).countP q + (if (l.find? p).any q then 1 else 0) = l.countP q
  | [] => rfl
  | a :: l => by
    rw [eraseP_cons, find?_cons]
    cases hp : p a with
    | true => simp [countP_cons]
    | false =>
      have := countP_eraseP l
      simp only [cond_false, countP_cons]
      omega

end List
