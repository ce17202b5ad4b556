import MakeInitrd.Lib.Words
import MakeInitrd.Runtime.Environ

/-!
# Removing variables from the environment

`unset_environ` records for every string of `environ` the length of its name, marks those whose
names match a pattern by a minus sign, and then goes through the array from its end and unsets what
is selected. `unsetenv` takes out every string with the name and moves the later ones down, so an
index stands for its string only as long as no selected name repeats (`unsetEnviron_exact`).
-/

namespace MakeInitrd.Runtime

open CMem Span Words List

/-! ## The model -/

/-- The first loop: the length of the name, or zero if there is no `=` -/
def nameLength (e : Bytes) : Nat := if 61 ∈ e then (e.takeWhile (· ≠ 61)).length else 0

section
variable (fnmatch : Bytes → Bytes → Bool)

/-- One pattern and one string, with what is recorded for it in `envname` -/
def markPattern (pattern e : Bytes) (k : Int) : Int :=
  if 0 < k ∧ fnmatch pattern (e.take k.toNat) then -k else k

/-- What is recorded for a string when all patterns have been tried -/
def mark (patterns : List Bytes) (e : Bytes) : Int :=
  patterns.foldl (fun k pattern => markPattern fnmatch pattern e k) (nameLength e)

end

/-- How much of a string is taken for the name to unset; zero if it stays -/
def victimLength (invertMatch : Bool) (k : Int) : Nat :=
  if !invertMatch then if k < 0 then (-k).toNat else 0
  else if 0 < k then k.toNat else 0

/-- `unsetenv`: nothing is done for a name that is empty or has a `=`. -/
def unsetenv (env : Env) (name : Bytes) : Env :=
  if name = [] ∨ 61 ∈ name then env else env.filter fun e => ¬name ++ [61] <+: e

/-- The last loop at the index `i`. Behind the strings that are left the array holds null pointers.
-/
def unsetAt (invertMatch : Bool) (env : Env) (i : Nat) (k : Int) : Env :=
  match env[i]? with
  | none => env
  | some e =>
    if 0 < victimLength invertMatch k then unsetenv env (e.take (victimLength invertMatch k))
      else env

/-- The last loop, from an index down -/
def unsetLoop (invertMatch : Bool) (marks : List Int) : Nat → Env → Env
  | 0, env => env
  | i + 1, env => unsetLoop invertMatch marks i (unsetAt invertMatch env i (marks.getD i 0))

/-- `unset_environ`. There is no array behind `clearenv`; then the first loop reads through a null
pointer. -/
def unsetEnviron (fnmatch : Bytes → Bytes → Bool) (envp : Option Env) (patterns : Bytes)
    (invertMatch : Bool) :
    Option Env :=
  envp.map fun env => unsetLoop invertMatch (env.map (mark fnmatch (patterns.splitOn 44)))
    env.length env

/-! ## What is selected -/

def nameOf (e : Bytes) : Bytes := e.takeWhile (· ≠ 61)

section
variable (fnmatch : Bytes → Bytes → Bool) (patterns : Bytes) (invertMatch : Bool)

/-- The string is a variable whose name matches a pattern, or none if the match is inverted. -/
def selected (e : Bytes) : Bool :=
  61 ∈ e ∧ ((patterns.splitOn 44).any (fnmatch · (nameOf e)) != invertMatch)

/-- Afterwards exactly those strings are there that were there and are not selected. -/
def Exact (envp : Option Env) : Prop :=
  ∃ env, unsetEnviron fnmatch envp patterns invertMatch = some env ∧
    ∀ e, e ∈ env ↔ e ∈ envp.getD [] ∧ ¬selected fnmatch patterns invertMatch e

end

variable {fnmatch : Bytes → Bytes → Bool} {patterns : Bytes} {invertMatch : Bool}

variable {e : Bytes}

theorem nameLength_eq (h : 61 ∈ e) : nameLength e = (nameOf e).length := if_pos h

theorem take_nameLength (h : 61 ∈ e) : e.take (nameLength e) = nameOf e := by
  rw [nameLength_eq h]
  exact prefix_iff_eq_take.1 (List.takeWhile_prefix _) |>.symm

theorem foldl_mark {k : Nat} (hk : 0 < k) (ps : List Bytes) :
    ps.foldl (fun k pattern => markPattern fnmatch pattern e k) (k : Int) =
      if ps.any (fnmatch · (e.take k)) then -(k : Int) else k := by
  have hneg : ∀ qs : List Bytes,
      qs.foldl (fun k pattern => markPattern fnmatch pattern e k) (-(k : Int)) = -(k : Int) := by
    intro qs
    induction qs with
    | nil => rfl
    | cons q qs ih =>
      rw [foldl_cons, markPattern, if_neg (by omega), ih]
  induction ps with
  | nil => rfl
  | cons p ps ih =>
    rw [foldl_cons, markPattern, any_cons, Int.toNat_natCast]
    cases hp : fnmatch p (e.take k) with
    | true => simp [hk, hneg]
    | false => simpa using ih

theorem foldl_mark_zero (e : Bytes) (ps : List Bytes) :
    ps.foldl (fun k pattern => markPattern fnmatch pattern e k) 0 = 0 := by
  induction ps with
  | nil => rfl
  | cons p ps ih => simpa [markPattern] using ih

theorem victimLength_mark (e : Bytes) :
    victimLength invertMatch (mark fnmatch (patterns.splitOn 44) e) =
      if selected fnmatch patterns invertMatch e then nameLength e else 0 := by
  by_cases heq : 61 ∈ e
  · rcases Nat.eq_zero_or_pos (nameLength e) with h0 | hpos
    · rw [mark, h0, Int.natCast_zero, foldl_mark_zero]
      cases invertMatch <;> simp [victimLength]
    · rw [mark, foldl_mark hpos, take_nameLength heq, selected]
      cases hany : (patterns.splitOn 44).any (fnmatch · (nameOf e)) <;> cases invertMatch <;>
        simp [victimLength, heq, hpos]
  · have h0 : nameLength e = 0 := if_neg heq
    rw [mark, h0, Int.natCast_zero, foldl_mark_zero]
    cases invertMatch <;> simp [victimLength]

/-! ## The last loop -/

theorem nameOf_prefix_iff {name : Bytes} (hname : 61 ∉ name) :
    name ++ [61] <+: e ↔ 61 ∈ e ∧ nameOf e = name := by
  have hne : ∀ c ∈ name, decide (c ≠ 61) = true := by
    intro c hc
    simp only [decide_eq_true_eq]
    exact fun h => hname (h ▸ hc)
  constructor
  · rintro ⟨t, rfl⟩
    rw [nameOf, append_assoc, singleton_append, takeWhile_stop hne (by simp)]
    simp
  · rintro ⟨hmem, rfl⟩
    cases hd : e.dropWhile (· ≠ 61) with
    | nil => cases dropWhile_eq_nil_iff.1 hd 61 hmem
    | cons c t =>
      obtain rfl : c = 61 := by simpa using false_of_dropWhile hd
      refine ⟨t, ?_⟩
      rw [append_assoc, singleton_append, nameOf, ← hd, takeWhile_append_dropWhile]

theorem not_mem_nameOf (e : Bytes) : 61 ∉ nameOf e := by
  intro h
  simpa using mem_takeWhile_imp h

theorem selected_congr {e' : Bytes} (he : 61 ∈ e) (he' : 61 ∈ e') (h : nameOf e = nameOf e') :
    selected fnmatch patterns invertMatch e = selected fnmatch patterns invertMatch e' := by
  simp [selected, he, he', h]

/-- Unsetting a selected string among those that stay and those before it takes out this string
alone, unless its name repeats. -/
theorem unsetAt_selected {pre post : Env} (hsel : selected fnmatch patterns invertMatch e)
    (hname : nameOf e ≠ [])
    (hpre : ∀ e' ∈ pre, selected fnmatch patterns invertMatch e' → nameOf e' ≠ nameOf e)
    (hpost : ∀ e' ∈ post, ¬selected fnmatch patterns invertMatch e') :
    unsetAt invertMatch (pre ++ e :: post) pre.length (mark fnmatch (patterns.splitOn 44) e) =
      pre ++ post := by
  have heq : 61 ∈ e := (of_decide_eq_true hsel).1
  have hlen : victimLength invertMatch (mark fnmatch (patterns.splitOn 44) e) = nameLength e := by
    rw [victimLength_mark, if_pos hsel]
  have hpos : 0 < nameLength e := by
    rw [nameLength_eq heq]
    exact length_pos_iff.2 hname
  have hget : (pre ++ e :: post)[pre.length]? = some e := by simp
  have hkeep : ∀ e', (selected fnmatch patterns invertMatch e' → nameOf e' ≠ nameOf e) →
      ¬nameOf e ++ [61] <+: e' := by
    intro e' h hp
    obtain ⟨he', hn⟩ := (nameOf_prefix_iff (not_mem_nameOf e)).1 hp
    exact h (by rw [selected_congr he' heq hn]; exact hsel) hn
  have hgone : nameOf e ++ [61] <+: e := (nameOf_prefix_iff (not_mem_nameOf e)).2 ⟨heq, rfl⟩
  simp only [unsetAt, hget, hlen, hpos, if_true, take_nameLength heq, unsetenv, hname,
    not_mem_nameOf, or_self, if_false, filter_append]
  rw [filter_eq_self.2, filter_cons_of_neg (by simpa using hgone), filter_eq_self.2]
  · exact fun e' he' => decide_eq_true (hkeep e' fun hs => absurd hs (hpost e' he'))
  · exact fun e' he' => decide_eq_true (hkeep e' (hpre e' he'))

variable {env : Env}

theorem unsetAt_kept {i : Nat} (hsel : ¬selected fnmatch patterns invertMatch e) :
    unsetAt invertMatch env i (mark fnmatch (patterns.splitOn 44) e) = env := by
  unfold unsetAt
  rw [victimLength_mark, if_neg hsel]
  split <;> simp

/-- The loop has come down to an index: before it the array is as it was, behind it there is what is
kept. -/
theorem unsetLoop_eq (hname : ∀ e ∈ env, selected fnmatch patterns invertMatch e → nameOf e ≠ [])
    (hnodup : ((env.filter (selected fnmatch patterns invertMatch)).map nameOf).Nodup)
    {pre post : Env} (henv : env = pre ++ post) :
    unsetLoop invertMatch (env.map (mark fnmatch (patterns.splitOn 44))) pre.length
        (pre ++ post.filter fun e => ¬selected fnmatch patterns invertMatch e) =
      env.filter fun e => ¬selected fnmatch patterns invertMatch e := by
  induction pre using reverseRecOn generalizing post with
  | nil => rw [henv]; rfl
  | append_singleton pre e ih =>
    have henv' : env = pre ++ e :: post := by rw [henv]; simp
    have hmark : (env.map (mark fnmatch (patterns.splitOn 44))).getD pre.length 0 =
        mark fnmatch (patterns.splitOn 44) e := by
      rw [henv']
      simp
    rw [← ih henv', length_append, length_singleton, unsetLoop, hmark, append_assoc,
      singleton_append]
    congr 1
    by_cases hsel : selected fnmatch patterns invertMatch e
    · rw [filter_cons_of_neg (by simpa using hsel)]
      refine unsetAt_selected hsel (hname e (by simp [henv']) hsel) (fun e' he' hsel' heq => ?_)
        (fun e' he' => by simpa using (mem_filter.1 he').2)
      rw [henv', filter_append, filter_cons_of_pos hsel, map_append, map_cons] at hnodup
      have hmem : nameOf e' ∈ (pre.filter (selected fnmatch patterns invertMatch)).map nameOf :=
        mem_map_of_mem (mem_filter.2 ⟨he', hsel'⟩)
      exact (nodup_append.1 hnodup).2.2 _ hmem (nameOf e) (by simp) heq
    · rw [filter_cons_of_pos (by simpa using hsel)]
      exact unsetAt_kept hsel

theorem mem_unsetLoop {marks : List Int} (he : nameOf e = []) (n : Nat) (hmem : e ∈ env) :
    e ∈ unsetLoop invertMatch marks n env := by
  have hunset : ∀ (env : Env) (name : Bytes), e ∈ env → e ∈ unsetenv env name := by
    intro env name hmem
    unfold unsetenv
    split_ifs with hname
    · exact hmem
    · obtain ⟨hnil, heq⟩ := not_or.1 hname
      refine mem_filter.2 ⟨hmem, decide_eq_true fun hp => hnil ?_⟩
      rw [← ((nameOf_prefix_iff heq).1 hp).2, he]
  induction n generalizing env with
  | zero => exact hmem
  | succ n ih =>
    refine ih ?_
    unfold unsetAt
    split
    · exact hmem
    · split_ifs
      · exact hunset _ _ hmem
      · exact hmem

/-- If the environment is there and every variable that is selected has a name, and no two of these
names are the same, exactly the selected variables are removed. Without the first two conditions
they never are. -/
theorem unsetEnviron_exact (fnmatch : Bytes → Bytes → Bool) (envp : Option Env) (patterns : Bytes)
    (invertMatch : Bool) :
    (∀ env, envp = some env → (∀ e ∈ env, selected fnmatch patterns invertMatch e → nameOf e ≠ []) →
      ((env.filter (selected fnmatch patterns invertMatch)).map nameOf).Nodup →
      Exact fnmatch patterns invertMatch envp) ∧
    (Exact fnmatch patterns invertMatch envp →
      ∃ env, envp = some env ∧ ∀ e ∈ env, selected fnmatch patterns invertMatch e →
        nameOf e ≠ []) := by
  constructor
  · rintro env rfl hname hnodup
    refine ⟨_, rfl, fun e => ?_⟩
    have := unsetLoop_eq hname hnodup (append_nil env).symm
    rw [filter_nil, append_nil] at this
    simp only [this, mem_filter, decide_eq_true_eq, Option.getD_some]
  · rintro ⟨env', henv', hexact⟩
    cases envp with
    | none => cases henv'
    | some env =>
      refine ⟨env, rfl, fun e he hsel hempty => ?_⟩
      cases henv'
      exact ((hexact e).1 (mem_unsetLoop hempty _ he)).2 hsel

/-- `A=1` and `B=2` with the pattern `A` -/
theorem unsetEnviron_exact_two :
    Exact (fun p n => p = n) (text "A") false (some [text "A=1", text "B=2"]) :=
  (unsetEnviron_exact _ _ _ _).1 _ rfl (by decide +kernel) (by decide +kernel)

/-- With `A=1`, `B=2` and `A=3`, the pattern `A` removes `B` too: `unsetenv` has taken out both
strings `A` when the index of the first one comes. And without an array there is no result. -/
theorem not_unsetEnviron_exact :
    ¬Exact (fun p n => p = n) (text "A") false (some [text "A=1", text "B=2", text "A=3"]) ∧
      ¬Exact (fun p n => p = n) (text "A") false none := by
  constructor
  · rintro ⟨env, henv, hexact⟩
    have hempty :
        unsetEnviron (fun p n => p = n) (some [text "A=1", text "B=2", text "A=3"])
          (text "A") false =
        some [] := by decide +kernel
    cases hempty.symm.trans henv
    cases (hexact (text "B=2")).2 (by decide +kernel)
  · rintro ⟨env, henv, -⟩
    cases henv

end MakeInitrd.Runtime
