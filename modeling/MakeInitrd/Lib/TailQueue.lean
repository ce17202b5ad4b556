import Mathlib.Data.List.Nodup
import MakeInitrd.Lib.Loop

/-!
# Tail queues

The singly linked lists of `sys/queue.h` (`STAILQ`). The link to the next element is a field of the
element; the head holds the address of the link that the next insertion writes. An element that is
not in the queue is put at its end (`Holds.insertTail`); nothing keeps a program from inserting an
element that is there already.
-/

/-- A queue over elements of `α`. -/
structure TailQueue (α : Type) where
  /-- `stqh_first` -/
  first : Option α
  /-- the element whose link `stqh_last` points to; without one it points to `stqh_first` -/
  last : Option α
  /-- `stqe_next` of each element -/
  next : α → Option α

namespace TailQueue

variable {α : Type}

/-- `STAILQ_INIT`, before any element has a link -/
def init : TailQueue α :=
  ⟨none, none, fun _ => none⟩

/-- The elements from a pointer on are those of the list, up to the end of the queue. -/
inductive Follows (next : α → Option α) : Option α → List α → Prop
  | nil : Follows next none []
  | cons {a : α} {l : List α} : Follows next (next a) l → Follows next (some a) (a :: l)

/-- The queue is the list, which has no element twice. -/
structure Lists (q : TailQueue α) (l : List α) : Prop where
  follows : Follows q.next q.first l
  nodup : l.Nodup

/-- The next insertion comes after the last element. -/
structure Holds (q : TailQueue α) (l : List α) : Prop extends Lists q l where
  last : q.last = l.getLast?

variable {q : TailQueue α} {l l' : List α} {a b : α} {next next' : α → Option α} {p : Option α}

theorem Follows.unique (h : Follows next p l) (h' : Follows next p l') : l = l' := by
  induction h generalizing l' with
  | nil =>
    cases h'
    rfl
  | cons _ ih =>
    cases h' with
    | cons h' => rw [ih h']

theorem Lists.unique (h : q.Lists l) (h' : q.Lists l') : l = l' :=
  h.follows.unique h'.follows

theorem holds_init : (init : TailQueue α).Holds [] where
  follows := .nil
  nodup := .nil
  last := rfl

section
variable [DecidableEq α]

/-- `STAILQ_INSERT_TAIL`: the link of the element is cleared, then the last link is written. -/
def insertTail (q : TailQueue α) (a : α) : TailQueue α :=
  let next := Function.update q.next a none
  match q.last with
  | none => ⟨some a, some a, next⟩
  | some b => ⟨q.first, some a, Function.update next b (some a)⟩

theorem Follows.insertTail (hl : l ≠ []) (h : Follows next p l) (hnodup : l.Nodup) (ha : a ∉ l)
    (hb : l.getLast? = some b) :
    Follows (Function.update (Function.update next a none) b (some a)) p (l ++ [a]) := by
  induction h with
  | nil => exact absurd rfl hl
  | @cons x l hx ih =>
    obtain ⟨hxl, hnodup⟩ := List.nodup_cons.1 hnodup
    obtain ⟨hax, hal⟩ : a ≠ x ∧ a ∉ l := by simpa using ha
    refine .cons ?_
    by_cases hnil : l = []
    · subst hnil
      obtain rfl : x = b := Option.some.inj hb
      have hab : Function.update (Function.update next a none) x (some a) a = none := by
        rw [Function.update_of_ne hax, Function.update_self]
      rw [Function.update_self]
      refine .cons ?_
      rw [hab]
      exact .nil
    · have hlast : l.getLast? = some b := by rwa [List.getLast?_cons_of_ne_nil hnil] at hb
      have hxb : x ≠ b := fun heq => hxl (heq ▸ List.mem_of_getLast? hlast)
      rw [Function.update_of_ne hxb, Function.update_of_ne (Ne.symm hax)]
      exact ih hnil hnodup hal hlast

theorem Holds.insertTail (h : q.Holds l) (ha : a ∉ l) : (q.insertTail a).Holds (l ++ [a]) := by
  have hlast := h.last
  unfold TailQueue.insertTail
  cases hq : q.last with
  | none =>
    rw [hq] at hlast
    cases List.getLast?_eq_none_iff.1 hlast.symm
    refine ⟨⟨.cons ?_, List.nodup_singleton a⟩, rfl⟩
    show Follows _ (Function.update q.next a none a) []
    rw [Function.update_self]
    exact .nil
  | some b =>
    rw [hq] at hlast
    have hne : l ≠ [] := by
      rintro rfl
      cases hlast
    refine ⟨⟨h.follows.insertTail hne h.nodup ha hlast.symm, ?_⟩, ?_⟩
    · exact List.nodup_append.2 ⟨h.nodup, List.nodup_singleton a, fun x hx y hy heq =>
        ha (List.mem_singleton.1 hy ▸ heq ▸ hx)⟩
    · exact List.getLast?_concat.symm

end

/-- A round of `STAILQ_FOREACH` that returns the first element with a property. -/
def search (q : TailQueue α) (found : α → Bool) : Option α → Loop.Next (Option α) (Option α)
  | none => .done none
  | some a => if found a then .done (some a) else .again (q.next a)

theorem Follows.search {found : α → Bool} (h : Follows q.next p l) :
    Loop.Returns (q.search found) p (l.find? found) := by
  induction h with
  | nil => exact Loop.returns_of_done rfl
  | @cons a l _ ih =>
    cases ha : found a with
    | true =>
      rw [List.find?_cons_of_pos ha]
      exact Loop.returns_of_done (if_pos ha)
    | false =>
      rw [List.find?_cons_of_neg (Bool.eq_false_iff.1 ha)]
      exact Loop.returns_of_again (if_neg (Bool.eq_false_iff.1 ha)) ih

theorem Lists.search {found : α → Bool} (h : q.Lists l) :
    Loop.Returns (q.search found) q.first (l.find? found) :=
  h.follows.search

theorem not_returns_search {found : α → Bool} (hnext : q.next a = some a) (ha : found a = false)
    (r : Option α) : ¬Loop.Returns (q.search found) (some a) r := by
  refine Loop.not_returns_of_fixed ?_
  show (if found a then Loop.Next.done (some a) else .again (q.next a)) = _
  rw [if_neg (Bool.eq_false_iff.1 ha), hnext]

end TailQueue
