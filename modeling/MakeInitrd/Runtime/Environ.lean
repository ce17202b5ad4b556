import MakeInitrd.Lib.CMem

/-!
# Saving and restoring an environment

`show_environ` prints the variables of an environment, and `set_environ` sets those of a file. With
quoting and without a prefix the one undoes the other (`setEnviron_showEnviron`).
-/

namespace MakeInitrd.Runtime

open CMem Span List

/-- `environ`: strings `name=value` -/
abbrev Env := List Bytes

/-! ## Printing -/

/-- The options `-p`, `-q` and `-s` -/
structure ShowOptions where
  leading : Bytes
  quote : Bool
  shell : Bool

/-- The bytes that `strpbrk` looks for: a dollar sign, a backquote, a quote and a backslash -/
def isSpecial (c : UInt8) : Bool := c = 36 ∨ c = 96 ∨ c = 34 ∨ c = 92

/-- The loop that prints a value in quotes: the bytes up to the next special one, and that one with
a backslash -/
def printQuoted (s : Bytes) : Bytes :=
  match _h : s.dropWhile fun c => !isSpecial c with
  | [] => s
  | d :: rest => (s.takeWhile fun c => !isSpecial c) ++ [92, d] ++ printQuoted rest
termination_by s.length
decreasing_by
  have := congrArg List.length
    (List.takeWhile_append_dropWhile (p := fun c => !isSpecial c) (l := s))
  rw [_h, List.length_append, List.length_cons] at this
  omega

/-- `isalnum` in the C locale -/
def isAlnum (c : UInt8) : Bool := (48 ≤ c ∧ c ≤ 57) ∨ (65 ≤ c ∧ c ≤ 90) ∨ (97 ≤ c ∧ c ≤ 122)

/-- What is printed for one string of the environment -/
def showEntry (o : ShowOptions) (e : Bytes) : Bytes :=
  let name := e.takeWhile (· ≠ 61)
  let value := (e.dropWhile (· ≠ 61)).tail
  if o.shell ∧ name.any (fun c => c ≠ 95 ∧ !isAlnum c) then []
  else if o.quote then o.leading ++ name ++ [61, 34] ++ printQuoted value ++ [34, 10]
  else o.leading ++ name ++ [61] ++ value ++ [10]

/-- `show_environ` -/
def showEnviron (o : ShowOptions) (env : Env) : Bytes := env.flatMap (showEntry o)

/-! ## Reading -/

/-- The ways in which `set_environ` gives up -/
inductive EnvironError where
  | noEquals (rest : Bytes)
  | noOpeningQuote (name : Bytes)
  | noClosingQuote (name : Bytes)
deriving DecidableEq

/-- `isspace` in the C locale -/
def isSpace (c : UInt8) : Bool := c = 32 ∨ (9 ≤ c ∧ c ≤ 13)

/-- The loop that reads a value, with the flag `is_quote`: the value, and the text it stops at. It
stops at a quote or at a NUL byte, as which the end of the file is read. -/
def scanValue : Bool → Bytes → Bytes × Bytes
  | _, [] => ([], [])
  | isQuote, c :: s =>
    if c = 0 then ([], c :: s)
    else if isQuote then (c :: (scanValue false s).1, (scanValue false s).2)
    else if c = 34 then ([], c :: s)
    else if c = 92 then scanValue true s
    else (c :: (scanValue false s).1, (scanValue false s).2)

/-- `setenv (name, value, 1)`; it fails for an empty name. -/
def setenv (env : Env) (name value : Bytes) : Env :=
  if name = [] then env else
  match env.findIdx? fun e => name ++ [61] <+: e with
  | some i => env.set i (name ++ 61 :: value)
  | none => env ++ [name ++ 61 :: value]

/-- The end of the text: a NUL byte or the end of the file -/
def atEnd (s : Bytes) : Bool := s.head?.getD 0 = 0

/-- The loop of `set_environ`, with a number of rounds; `none` if they do not suffice. -/
def setLoop : Nat → Bytes → Env → Option (Except EnvironError Env)
  | 0, _, _ => none
  | fuel + 1, a, env =>
    if atEnd a then some (.ok env)
    else
      let a := a.dropWhile isSpace
      if atEnd a then some (.ok env)
      else
        let name := a.takeWhile fun c => c ≠ 61 ∧ c ≠ 0
        match a.dropWhile fun c => c ≠ 61 ∧ c ≠ 0 with
        | 61 :: 34 :: rest =>
          let (value, rest) := scanValue false rest
          match rest with
          | 34 :: rest => setLoop fuel rest (setenv env name value)
          | _ => some (.error (.noClosingQuote name))
        | 61 :: _ => some (.error (.noOpeningQuote name))
        | _ => some (.error (.noEquals name))

/-- `set_environ` for a file that can be mapped. Every round takes at least the `=` of a variable.
-/
def setEnviron (file : Bytes) (env : Env) : Option (Except EnvironError Env) :=
  setLoop (file.length + 1) file env

/-- What is printed for one byte of a value -/
def quoted (c : UInt8) : Bytes := if isSpecial c then [92, c] else [c]

theorem flatMap_quoted {s : Bytes} (h : ∀ c ∈ s, (!isSpecial c) = true) : s.flatMap quoted = s := by
  induction s with
  | nil => rfl
  | cons c s ih =>
    have hc : isSpecial c = false := by simpa using h c (by simp)
    rw [flatMap_cons, quoted, hc, ih fun d hd => h d (mem_cons_of_mem _ hd)]
    rfl

theorem printQuoted_eq (s : Bytes) : printQuoted s = s.flatMap quoted := by
  fun_induction printQuoted s with
  | case1 s h =>
    refine (flatMap_quoted fun c hc => ?_).symm
    exact dropWhile_eq_nil_iff.1 h c hc
  | case2 s d rest h ih =>
    have hd : isSpecial d = true := by simpa using false_of_dropWhile h
    conv_rhs => rw [← takeWhile_append_dropWhile (p := fun c => !isSpecial c) (l := s), h]
    rw [flatMap_append, flatMap_cons, flatMap_quoted fun c => mem_takeWhile_imp, ih]
    simp [quoted, hd]

theorem scanValue_quoted {v : Bytes} (hv : 0 ∉ v) (r : Bytes) :
    scanValue false (v.flatMap quoted ++ 34 :: r) = (v, 34 :: r) := by
  induction v with
  | nil => rfl
  | cons c v ih =>
    have hc : c ≠ 0 := fun h => hv (by simp [h])
    have ih := ih fun h => hv (mem_cons_of_mem _ h)
    rw [flatMap_cons, quoted]
    split_ifs with hspecial
    · -- the backslash sets the flag, and the byte behind it is taken
      rw [append_assoc, cons_append, singleton_append, scanValue, if_neg (by decide),
        if_neg (by decide), if_neg (by decide), if_pos rfl, scanValue, if_neg hc, if_pos rfl, ih]
    · have h34 : c ≠ 34 := by rintro rfl; exact hspecial rfl
      have h92 : c ≠ 92 := by rintro rfl; exact hspecial rfl
      rw [append_assoc, singleton_append, scanValue, if_neg hc, if_neg (by decide), if_neg h34,
        if_neg h92, ih]

/-! ## The round trip -/

/-- A variable that can be restored: its name is not empty, has no `=` and does not start with white
space. -/
structure Restorable (name value : Bytes) : Prop where
  head : ∃ c s, name = c :: s ∧ isSpace c = false
  noEquals : 61 ∉ name
  noNul : 0 ∉ name
  noNulValue : 0 ∉ value

/-- The string of a variable -/
def entry (v : Bytes × Bytes) : Bytes := v.1 ++ 61 :: v.2

/-- `environ -q` -/
def saving : ShowOptions := ⟨[], true, false⟩

variable {name value : Bytes}

theorem ne_equals_of_mem (h : Restorable name value) : ∀ c ∈ name, decide (c ≠ 61) = true := by
  intro c hc
  simp only [decide_eq_true_eq]
  rintro rfl
  exact h.noEquals hc

theorem showEntry_saving (h : Restorable name value) :
    showEntry saving (entry (name, value)) = name ++ 61 :: 34 ::
      (value.flatMap quoted ++ [34, 10]) := by
  have hname := ne_equals_of_mem h
  simp only [showEntry, saving, entry,
    takeWhile_stop hname (by simp : decide ((61 : UInt8) ≠ 61) = false),
    dropWhile_stop hname (by simp : decide ((61 : UInt8) ≠ 61) = false)]
  simp [printQuoted_eq]

/-- The loop reads one entry back. -/
theorem setLoop_entry (h : Restorable name value) (fuel : Nat) (nl r : Bytes)
    (hnl : ∀ c ∈ nl, isSpace c ∧ c ≠ 0) (env : Env) :
    setLoop (fuel + 1) (nl ++ (showEntry saving (entry (name, value)) ++ r)) env =
      setLoop fuel ([10] ++ r) (setenv env name value) := by
  obtain ⟨c, s, hname, hc⟩ := h.head
  have hne : ∀ d ∈ name, decide (d ≠ 61 ∧ d ≠ 0) = true := by
    intro d hd
    simp only [decide_eq_true_eq]
    exact ⟨fun e => h.noEquals (e ▸ hd), fun e => h.noNul (e ▸ hd)⟩
  have hc0 : c ≠ 0 := fun e => h.noNul (by simp [hname, e])
  have htext : showEntry saving (entry (name, value)) ++ r =
      name ++ 61 :: 34 :: (value.flatMap quoted ++ 34 :: ([10] ++ r)) := by
    rw [showEntry_saving h]
    simp
  have hskip : (nl ++ (showEntry saving (entry (name, value)) ++ r)).dropWhile isSpace =
      showEntry saving (entry (name, value)) ++ r := by
    rw [htext, hname, cons_append]
    exact dropWhile_stop (fun d hd => (hnl d hd).1) hc
  have hend' : atEnd (showEntry saving (entry (name, value)) ++ r) = false := by
    rw [htext, hname]
    exact decide_eq_false hc0
  have hend : atEnd (nl ++ (showEntry saving (entry (name, value)) ++ r)) = false := by
    cases nl with
    | nil => exact hend'
    | cons d nl => exact decide_eq_false (hnl d (by simp)).2
  rw [setLoop, hend, hskip]
  simp only [Bool.false_eq_true, if_false, hend']
  rw [htext, takeWhile_stop hne (by simp), dropWhile_stop hne (by simp)]
  simp only [scanValue_quoted h.noNulValue]

theorem not_prefix_entry {name' : Bytes} (h : 61 ∉ name) (h' : 61 ∉ name') (hne : name ≠ name') :
    ¬name ++ [61] <+: name' ++ 61 :: value := by
  rintro ⟨t, ht⟩
  refine hne ?_
  have := congrArg (takeWhile fun c => decide (c ≠ 61)) ht
  rw [append_assoc, singleton_append, takeWhile_stop _ (by simp),
    takeWhile_stop _ (by simp)] at this
  · exact this
  · intro c hc
    simp only [decide_eq_true_eq]
    exact fun e => h' (e ▸ hc)
  · intro c hc
    simp only [decide_eq_true_eq]
    exact fun e => h (e ▸ hc)

variable {vs : List (Bytes × Bytes)}

theorem setenv_new (hvs : ∀ v ∈ vs, 61 ∉ v.1) (hne : name ≠ []) (hname : 61 ∉ name)
    (hnew : ∀ v ∈ vs, v.1 ≠ name) :
    setenv (vs.map entry) name value = (vs ++ [(name, value)]).map entry := by
  have hnone : (vs.map entry).findIdx? (fun e => name ++ [61] <+: e) = none := by
    rw [findIdx?_eq_none_iff]
    intro e he
    obtain ⟨v, hv, rfl⟩ := mem_map.1 he
    exact decide_eq_false (not_prefix_entry hname (hvs v hv) (hnew v hv).symm)
  rw [setenv, if_neg hne, hnone, map_append]
  rfl

/-- The loop reads all entries back. -/
theorem setLoop_showEnviron (hvs : ∀ v ∈ vs, Restorable v.1 v.2) (fuel : Nat)
    (done : List (Bytes × Bytes)) (hdone : ∀ v ∈ done, 61 ∉ v.1)
    (hnames : ((done ++ vs).map (·.1)).Nodup)
    (nl : Bytes) (hnl : ∀ c ∈ nl, isSpace c ∧ c ≠ 0) (hfuel : vs.length < fuel) :
    setLoop fuel (nl ++ showEnviron saving (vs.map entry)) (done.map entry) =
      some (.ok ((done ++ vs).map entry)) := by
  induction vs generalizing fuel done nl with
  | nil =>
    obtain ⟨k, rfl⟩ : ∃ k, fuel = k + 1 := ⟨fuel - 1, by simp at hfuel; omega⟩
    have hskip : nl.dropWhile isSpace = [] := dropWhile_eq_nil_iff.2 fun c hc => (hnl c hc).1
    simp only [showEnviron, map_nil, flatMap_nil, append_nil, setLoop, hskip]
    split_ifs <;> simp_all [atEnd]
  | cons v vs ih =>
    obtain ⟨k, rfl⟩ : ∃ k, fuel = k + 1 := ⟨fuel - 1, by simp at hfuel; omega⟩
    have hv := hvs v (by simp)
    have hnew : ∀ w ∈ done, w.1 ≠ v.1 := by
      intro w hw heq
      rw [map_append, map_cons] at hnames
      have := (nodup_append.1 hnames).2.2 w.1 (mem_map_of_mem hw) v.1 (by simp)
      exact this heq
    have happ : done ++ v :: vs = (done ++ [v]) ++ vs := by simp
    have hshow : showEnviron saving ((v :: vs).map entry) =
        showEntry saving (entry (v.1, v.2)) ++ showEnviron saving (vs.map entry) := rfl
    have hne : v.1 ≠ [] := by
      obtain ⟨c, s, hname, -⟩ := hv.head
      exact hname ▸ cons_ne_nil c s
    rw [hshow, setLoop_entry hv k nl _ hnl, setenv_new hdone hne hv.noEquals hnew, happ]
    refine ih (fun w hw => hvs w (mem_cons_of_mem _ hw)) k (done ++ [v]) ?_ (happ ▸ hnames) [10]
      (by decide +kernel)
      (by simp at hfuel; omega)
    intro w hw
    rcases mem_append.1 hw with hw | hw
    · exact hdone w hw
    · rw [mem_singleton.1 hw]
      exact hv.noEquals

theorem length_le_showEnviron (hvs : ∀ v ∈ vs, Restorable v.1 v.2) :
    vs.length ≤ (showEnviron saving (vs.map entry)).length := by
  induction vs with
  | nil => simp
  | cons v vs ih =>
    have := ih fun w hw => hvs w (mem_cons_of_mem _ hw)
    have hshow := showEntry_saving (hvs v (by simp))
    simp only [showEnviron, map_cons, flatMap_cons, length_append, length_cons] at this ⊢
    rw [show showEntry saving (entry v) = _ from hshow]
    simp only [length_append, length_cons]
    omega

/-- An environment is restored from what has been saved of it. -/
theorem setEnviron_showEnviron (vs : List (Bytes × Bytes)) (hvs : ∀ v ∈ vs, Restorable v.1 v.2)
    (hnames : (vs.map (·.1)).Nodup) :
    setEnviron (showEnviron saving (vs.map entry)) [] = some (.ok (vs.map entry)) := by
  have := setLoop_showEnviron hvs ((showEnviron saving (vs.map entry)).length + 1) []
    (by simp) hnames []
    (by simp) (Nat.lt_succ_of_le (length_le_showEnviron hvs))
  simpa [setEnviron] using this

/-- `A` with the value `a"$` and `B` with an empty value -/
theorem setEnviron_showEnviron_two :
    setEnviron (showEnviron saving ([([65], [97, 34, 36]), ([66], [])].map entry)) [] =
      some (.ok ([([65], [97, 34, 36]), ([66], [])].map entry)) := by
  refine setEnviron_showEnviron _ (fun v hv => ?_) (by decide)
  simp only [mem_cons, not_mem_nil, or_false] at hv
  rcases hv with rfl | rfl
  · exact ⟨⟨65, [], rfl, rfl⟩, by decide, by decide, by decide⟩
  · exact ⟨⟨66, [], rfl, rfl⟩, by decide, by decide, by decide⟩

end MakeInitrd.Runtime
