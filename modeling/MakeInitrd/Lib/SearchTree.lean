import Mathlib.Data.Tree.Basic

/-!
# The search trees of the C library

`twalk` goes through a binary tree and calls its action up to three times for a node, so an action
that ignores all but one of the three sees each node once, in order (`filterMap_twalk`). How
`tsearch` keeps its tree balanced is left open: `Library` says what a program can rely on.
-/

namespace SearchTree

universe u

variable {α : Type u}

def inorder : BinaryTree α → List α
  | .nil => []
  | .node x l r => inorder l ++ x :: inorder r

inductive Visit where
  | preorder
  | postorder
  | endorder
  | leaf
deriving DecidableEq

/-- What the action of `twalk` is called with. -/
def twalk : BinaryTree α → List (α × Visit)
  | .nil => []
  | .node x .nil .nil => [(x, .leaf)]
  | .node x l r => (x, .preorder) :: twalk l ++ (x, .postorder) :: twalk r ++ [(x, .endorder)]

/-- The visit between the two subtrees. -/
def Visit.isMiddle : Visit → Bool
  | .postorder | .leaf => true
  | .preorder | .endorder => false

theorem filterMap_twalk (t : BinaryTree α) :
    (twalk t).filterMap (fun e => if e.2.isMiddle then some e.1 else none) = inorder t := by
  induction t with
  | nil => rfl
  | node x l r ihl ihr =>
    unfold twalk
    split
    · next h => cases h
    · next h =>
      cases h
      rfl
    · next h =>
      cases h
      simp only [inorder, ← ihl, ← ihr, List.cons_append, List.filterMap_cons,
        List.filterMap_append,
        Visit.isMiddle, Bool.false_eq_true, if_false, if_true, List.filterMap_nil, List.append_nil]

/-- The `tsearch` of a C library, for data that `eqv` compares as equal. A pointer to the datum of a
node is the place of the node in the order of the tree. -/
structure Library (α : Type u) (eqv : α → α → Bool) where
  Root : Type u
  empty : Root
  /-- the data of the tree, in order -/
  data : Root → List α
  tsearch : α → Root → Root × Nat
  /-- an assignment to the datum of a node -/
  assign : Root → Nat → α → Root
  data_empty : data empty = []
  /-- a datum that is equal to the key is found -/
  found (key : α) (t : Root) (x : α) : x ∈ data t → eqv key x →
    data (tsearch key t).1 = data t ∧ ∃ y, (data t)[(tsearch key t).2]? = some y ∧ eqv key y
  /-- otherwise the key is inserted -/
  inserted (key : α) (t : Root) : (∀ x ∈ data t, eqv key x = false) →
    ∃ a b, data t = a ++ b ∧ data (tsearch key t).1 = a ++ key :: b ∧ (tsearch key t).2 = a.length
  /-- a datum can be replaced by an equal one -/
  data_assign (t : Root) (i : Nat) (x y : α) : (data t)[i]? = some y → eqv x y →
    data (assign t i x) = (data t).set i x

def Library.ofList (eqv : α → α → Bool) : Library α eqv where
  Root := List α
  empty := []
  data := id
  tsearch key l := if l.any (eqv key) then (l, l.findIdx (eqv key)) else (l ++ [key], l.length)
  assign l i x := l.set i x
  data_empty := rfl
  found key l x hx heq := by
    have hany : l.any (eqv key) := List.any_eq_true.2 ⟨x, hx, heq⟩
    rw [if_pos hany]
    have hlt := List.findIdx_lt_length_of_exists ⟨x, hx, heq⟩
    exact ⟨rfl, _, List.getElem?_eq_getElem hlt, List.findIdx_getElem⟩
  inserted key l h := by
    have hany : ¬l.any (eqv key) := fun hany => by
      obtain ⟨x, hx, heq⟩ := List.any_eq_true.1 hany
      exact Bool.false_ne_true ((h x hx).symm.trans heq)
    rw [if_neg hany]
    exact ⟨l, [], (List.append_nil l).symm, rfl, rfl⟩
  data_assign _ _ _ _ _ _ := rfl

end SearchTree
