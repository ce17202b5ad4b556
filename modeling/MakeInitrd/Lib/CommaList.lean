import MakeInitrd.Lib.Glob
import MakeInitrd.Lib.Words

/-!
# Lists between commas

Scripts keep a list of names as a text with a comma before, between and behind them
(`CommaList.enclosed`), and look for a name with `[ -z "${list##*,$name,*}" ]`. For names without
commas and special bytes this is membership (`contains_enclosed`).
-/

namespace CommaList

open CMem Glob Words List

/-- The text `,a,b,` -/
def enclosed (ws : List Bytes) : Bytes := 44 :: ws.flatMap (· ++ [44])

/-- `[ -z "${list##*,$name,*}" ]` -/
def contains (list name : Bytes) : Bool :=
  (hashHash (parse (text "*," ++ (name ++ text ",*"))) list).isEmpty

variable {list name w : Bytes} {ws : List Bytes}

theorem enclosed_append (ws : List Bytes) (w : Bytes) :
    enclosed (ws ++ [w]) = enclosed ws ++ (w ++ [44]) := by
  simp [enclosed]

theorem contains_iff (hlist : list ≠ []) (hname : ∀ c ∈ name, isPlain c = true) :
    contains list name = true ↔ ∃ a b, list = a ++ 44 :: (name ++ 44 :: b) := by
  have hpattern :
      parse (text "*," ++ (name ++ text ",*")) = .star :: .lit 44 ::
        (name.map .lit ++ [.lit 44, .star]) := by
    have hstar (s : Bytes) : parse (42 :: s) = .star :: parse s := rfl
    have hcomma (s : Bytes) : parse (44 :: s) = .lit 44 :: parse s := parse_cons (by decide) s
    show parse (42 :: 44 :: (name ++ [44, 42])) = _
    rw [hstar, hcomma, parse_plain hname, hcomma]
    rfl
  rw [contains, List.isEmpty_iff, hpattern, hashHash_eq_nil _ hlist]
  simp only [isMatch_star, isMatch_lit, isMatch_lits, isMatch_nil]
  constructor
  · rintro ⟨a, _, rfl, _, rfl, _, rfl, b, rfl, -⟩
    exact ⟨a, b, rfl⟩
  · rintro ⟨a, b, rfl⟩
    exact ⟨a, _, rfl, _, rfl, _, rfl, b, rfl, b, [], by simp, rfl⟩

theorem mem_of_enclosed (hws : ∀ w ∈ ws, 44 ∉ w) (hname : 44 ∉ name) {a b : Bytes}
    (h : enclosed ws = a ++ 44 :: (name ++ 44 :: b)) : name ∈ ws := by
  induction ws generalizing a with
  | nil =>
    have hlen := congrArg length h
    simp only [enclosed, flatMap_nil, length_append, length_cons, length_nil] at hlen
    omega
  | cons w ws ih =>
    have hw : 44 ∉ w := hws w mem_cons_self
    have hws' : ∀ w ∈ ws, 44 ∉ w := fun v hv => hws v (mem_cons_of_mem _ hv)
    have hcons : enclosed (w :: ws) = 44 :: (w ++ enclosed ws) := by simp [enclosed]
    rw [hcons] at h
    cases a with
    | nil =>
      -- Up to the first comma, both sides are a word.
      have htail : w ++ enclosed ws = name ++ 44 :: b := cons.inj h |>.2
      have hspan := congrArg (takeWhile (· ≠ 44)) htail
      have hne {v : Bytes} (hv : 44 ∉ v) : ∀ c ∈ v, decide (c ≠ 44) = true :=
        fun c hc => decide_eq_true fun h44 => hv (h44 ▸ hc)
      rw [enclosed, Span.takeWhile_stop (hne hw) (by decide),
        Span.takeWhile_stop (hne hname) (by decide)] at hspan
      exact hspan ▸ mem_cons_self
    | cons c a =>
      have htail : w ++ enclosed ws = a ++ 44 :: (name ++ 44 :: b) := cons.inj h |>.2
      refine mem_cons_of_mem _ ?_
      rcases append_eq_append_iff.1 htail with ⟨a', rfl, ha⟩ | ⟨c', rfl, hc⟩
      · exact ih hws' ha
      · cases c' with
        | nil => exact ih hws' (a := []) hc.symm
        | cons d c' =>
          obtain ⟨rfl, -⟩ := cons.inj hc
          simp at hw

theorem contains_enclosed (hws : ∀ w ∈ ws, 44 ∉ w) (hname : 44 ∉ name)
    (hplain : ∀ c ∈ name, isPlain c = true) :
    contains (enclosed ws) name = true ↔ name ∈ ws := by
  rw [contains_iff (by simp [enclosed]) hplain]
  constructor
  · rintro ⟨a, b, h⟩
    exact mem_of_enclosed hws hname h
  · intro hmem
    obtain ⟨l, r, rfl⟩ := mem_iff_append.1 hmem
    -- The comma before the word ends the text of the words before it.
    refine ⟨l.flatMap fun w => 44 :: w, r.flatMap (· ++ [44]), ?_⟩
    clear hmem hws
    induction l with
    | nil => simp [enclosed]
    | cons w l ih =>
      simp only [enclosed, cons_append, flatMap_cons, append_assoc] at ih ⊢
      simpa using ih

end CommaList
