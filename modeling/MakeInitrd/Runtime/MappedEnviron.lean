import MakeInitrd.Lib.Words
import MakeInitrd.Runtime.Environ

/-!
# Reading the environment from a mapped file

`set_environ` maps the file and stops at a NUL byte. Behind the last byte of the file the mapping is
filled with zeros up to the end of the page. If the file ends with a page there are none, and the
scan goes on beyond the mapping unless it has given up before: only a missing opening quote ends it
without a NUL byte. A NUL byte in the file ends the scan behind complete assignments, although the
file goes on (`mapEnviron_safe_iff`).
-/

namespace MakeInitrd.Runtime

open CMem Span Words List

/-! ## The scan

The loops read the mapping byte by byte. The empty list is the position behind the mapping; `none`
stands for a loop that inspects it. -/

/-- `while (isspace(*a)) a++;` -/
def skipSpaces : Bytes → Option Bytes
  | [] => none
  | c :: s => if isSpace c then skipSpaces s else some (c :: s)

/-- The loop over `a[namesz]`: the name, and the text at the `=` or the NUL byte behind it -/
def scanName : Bytes → Option (Bytes × Bytes)
  | [] => none
  | c :: s => if c = 61 ∨ c = 0 then some ([], c :: s) else (scanName s).map fun r =>
    (c :: r.1, r.2)

/-- The loop that reads a value, with the flag `is_quote`: the value, and the text at the quote or
the NUL byte behind it -/
def readValue : Bool → Bytes → Option (Bytes × Bytes)
  | _, [] => none
  | isQuote, c :: s =>
    if c = 0 then some ([], c :: s)
    else if isQuote then (readValue false s).map fun r => (c :: r.1, r.2)
    else if c = 34 then some ([], c :: s)
    else if c = 92 then readValue true s
    else (readValue false s).map fun r => (c :: r.1, r.2)

inductive Ended where
  /-- it inspects a position behind the mapping -/
  | beyond
  | fatal (e : EnvironError)
  /-- it stops at a NUL byte; `rest` is what the mapping has from there on -/
  | done (env : Env) (rest : Bytes)
deriving DecidableEq

/-- The loop of `set_environ` over the mapping, with a number of rounds; `none` if they do not
suffice. -/
def mapLoop : Nat → Bytes → Env → Option Ended
  | 0, _, _ => none
  | _ + 1, [], _ => some .beyond
  | fuel + 1, c :: s, env =>
    if c = 0 then some (.done env (c :: s))
    else
      match skipSpaces (c :: s) with
      | none => some .beyond
      | some a =>
        if atEnd a then some (.done env a)
        else
          match scanName a with
          | none => some .beyond
          | some (name, 61 :: rest) =>
            match rest with
            | [] => some .beyond
            | q :: rest =>
              if q ≠ 34 then some (.fatal (.noOpeningQuote name))
              else
                match readValue false rest with
                | none => some .beyond
                | some (value, 34 :: rest) => mapLoop fuel rest (setenv env name value)
                | some _ => some (.fatal (.noClosingQuote name))
          | some (name, _) => some (.fatal (.noEquals name))

/-- How many zeros follow the last byte of a file of `n` bytes up to the end of the page -/
def pagePad (page n : Nat) : Nat := (page - n % page) % page

/-- `set_environ` for a file that can be mapped; an empty file is not. -/
def mapEnviron (page : Nat) (file : Bytes) (env : Env) : Option Ended :=
  if file = [] then some (.done env [])
  else mapLoop (file.length + pagePad page file.length + 1)
    (file ++ List.replicate (pagePad page file.length) 0) env

/-- The scan ends by a fatal error or behind the last byte of the file, and it has not inspected a
position behind the page of that byte. -/
def Safe (page : Nat) (file : Bytes) (env : Env) : Prop :=
  (∃ e, mapEnviron page file env = some (.fatal e)) ∨
    ∃ env' rest, mapEnviron page file env = some (.done env' rest) ∧ rest.length ≤
      pagePad page file.length

/-! ## What the loops find -/

variable {s a : Bytes}

theorem skipSpaces_some (h : skipSpaces s = some a) :
    ∃ ws, s = ws ++ a ∧ (∀ c ∈ ws, isSpace c) ∧ ∃ c t, a = c :: t ∧ isSpace c = false := by
  induction s with
  | nil => cases h
  | cons c s ih =>
    rw [skipSpaces] at h
    split_ifs at h with hc
    · obtain ⟨ws, rfl, hws, ha⟩ := ih h
      exact ⟨c :: ws, rfl, forall_mem_cons.2 ⟨hc, hws⟩, ha⟩
    · cases h
      exact ⟨[], rfl, by simp, c, s, rfl, by simpa using hc⟩

variable {c : UInt8}

theorem skipSpaces_append {ws : Bytes} (hws : ∀ c ∈ ws, isSpace c)
    (hc : isSpace c = false) (t : Bytes) :
    skipSpaces (ws ++ c :: t) = some (c :: t) := by
  induction ws with
  | nil => simp [skipSpaces, hc]
  | cons w ws ih =>
    obtain ⟨hw, hws⟩ := forall_mem_cons.1 hws
    rw [cons_append, skipSpaces, if_pos hw, ih hws]

variable {name r : Bytes}

theorem scanName_some (h : scanName s = some (name, r)) :
    s = name ++ r ∧ 61 ∉ name ∧ 0 ∉ name ∧ ∃ t, r = 61 :: t ∨ r = 0 :: t := by
  induction s generalizing name with
  | nil => cases h
  | cons c s ih =>
    rw [scanName] at h
    split_ifs at h with hc
    · cases h
      exact ⟨rfl, by simp, by simp, s, by rcases hc with rfl | rfl <;> simp⟩
    · obtain ⟨⟨name', r'⟩, hs, heq⟩ := Option.map_eq_some_iff.1 h
      cases heq
      obtain ⟨rfl, h61, h0, hr⟩ := ih hs
      obtain ⟨hc61, hc0⟩ := not_or.1 hc
      exact ⟨rfl, by simp [Ne.symm hc61, h61], by simp [Ne.symm hc0, h0], hr⟩

theorem scanName_append (h61 : 61 ∉ name) (h0 : 0 ∉ name) (hc : c = 61 ∨ c = 0) (t : Bytes) :
    scanName (name ++ c :: t) = some (name, c :: t) := by
  induction name with
  | nil => simp [scanName, hc]
  | cons d name ih =>
    rw [mem_cons, not_or] at h61 h0
    have hd : ¬(d = 61 ∨ d = 0) := not_or.2 ⟨Ne.symm h61.1, Ne.symm h0.1⟩
    rw [cons_append, scanName, if_neg hd, ih h61.2 h0.2]
    rfl

/-- What stands between quotes: a backslash takes the next byte with it. -/
inductive Body : Bytes → Prop
  | nil : Body []
  | plain {c : UInt8} {s : Bytes} : c ≠ 34 → c ≠ 92 → Body s → Body (c :: s)
  | escaped {c : UInt8} {s : Bytes} : Body s → Body (92 :: c :: s)

theorem readValue_body {body : Bytes} (hb : Body body) (h0 : 0 ∉ body)
    (hc : c = 34 ∨ c = 0) (t : Bytes) :
    ∃ v, readValue false (body ++ c :: t) = some (v, c :: t) := by
  induction hb with
  | nil => rcases hc with rfl | rfl <;> exact ⟨[], rfl⟩
  | @plain d s h34 h92 _ ih =>
    rw [mem_cons, not_or] at h0
    obtain ⟨v, hv⟩ := ih h0.2
    refine ⟨d :: v, ?_⟩
    rw [cons_append, readValue, if_neg (Ne.symm h0.1), if_neg (by decide), if_neg h34,
      if_neg h92, hv]
    rfl
  | @escaped d s _ ih =>
    rw [mem_cons, mem_cons, not_or, not_or] at h0
    obtain ⟨v, hv⟩ := ih h0.2.2
    refine ⟨d :: v, ?_⟩
    rw [cons_append, cons_append, readValue, if_neg (by decide), if_neg (by decide),
      if_neg (by decide),
      if_pos rfl, readValue, if_neg (Ne.symm h0.2.1), if_pos rfl, hv]
    rfl

/-- What the loop over a value has read when it stops, with the flag it started with -/
def BodyFrom : Bool → Bytes → Prop
  | false, b => Body b
  | true, b => ∃ c b', b = c :: b' ∧ Body b'

variable {isQuote : Bool}

theorem readValue_some {v : Bytes} (h : readValue isQuote s = some (v, r)) :
    ∃ b, s = b ++ r ∧ 0 ∉ b ∧ ((∃ t, r = 34 :: t) ∧ BodyFrom isQuote b ∨ ∃ t, r = 0 :: t) := by
  induction s generalizing isQuote v with
  | nil => cases h
  | cons c s ih =>
    rw [readValue] at h
    split_ifs at h with hc hq h34 h92
    · cases h
      exact ⟨[], rfl, by simp, .inr ⟨s, by rw [hc]⟩⟩
    · -- a byte behind a backslash
      obtain ⟨⟨v', r'⟩, hs, heq⟩ := Option.map_eq_some_iff.1 h
      cases heq
      obtain ⟨b, rfl, h0, hr⟩ := ih hs
      refine ⟨c :: b, rfl, by simp [Ne.symm hc, h0], hr.imp_left fun hb => ⟨hb.1, ?_⟩⟩
      rw [hq]
      exact ⟨c, b, rfl, hb.2⟩
    · cases h
      refine ⟨[], rfl, by simp, .inl ⟨⟨s, by rw [h34]⟩, ?_⟩⟩
      rw [Bool.not_eq_true] at hq
      rw [hq]
      exact .nil
    · obtain ⟨b, rfl, h0, hr⟩ := ih h
      refine ⟨c :: b, rfl, by simp [Ne.symm hc, h0], hr.imp_left fun hb => ⟨hb.1, ?_⟩⟩
      obtain ⟨d, b', rfl, hb'⟩ := hb.2
      rw [Bool.not_eq_true] at hq
      rw [hq, h92]
      exact .escaped hb'
    · obtain ⟨⟨v', r'⟩, hs, heq⟩ := Option.map_eq_some_iff.1 h
      cases heq
      obtain ⟨b, rfl, h0, hr⟩ := ih hs
      refine ⟨c :: b, rfl, by simp [Ne.symm hc, h0], hr.imp_left fun hb => ⟨hb.1, ?_⟩⟩
      rw [Bool.not_eq_true] at hq
      rw [hq]
      exact .plain h34 h92 hb.2

/-! A loop leaves the mapping only if there is no NUL byte. -/

theorem skipSpaces_none (h : skipSpaces s = none) : 0 ∉ s := by
  induction s with
  | nil => simp
  | cons c s ih =>
    rw [skipSpaces] at h
    split_ifs at h with hc
    have hne : c ≠ 0 := by
      rintro rfl
      cases hc
    simp [Ne.symm hne, ih h]

theorem scanName_none (h : scanName s = none) : 0 ∉ s := by
  induction s with
  | nil => simp
  | cons c s ih =>
    rw [scanName] at h
    split_ifs at h with hc
    simp [Ne.symm (not_or.1 hc).2, ih (Option.map_eq_none_iff.1 h)]

theorem readValue_none (h : readValue isQuote s = none) : 0 ∉ s := by
  induction s generalizing isQuote with
  | nil => simp
  | cons c s ih =>
    rw [readValue] at h
    split_ifs at h with hc hq h34 h92
    · simp [Ne.symm hc, ih (Option.map_eq_none_iff.1 h)]
    · simp [Ne.symm hc, ih h]
    · simp [Ne.symm hc, ih (Option.map_eq_none_iff.1 h)]

/-! ## Assignments -/

/-- A name as the scan finds it: without `=`, and not starting with white space -/
structure Named (name : Bytes) : Prop where
  noEquals : 61 ∉ name
  head : ∀ c t, name = c :: t → isSpace c = false

/-- The text has an assignment without an opening quote behind complete ones. -/
inductive Unquoted : Bytes → Prop
  | here {ws name : Bytes} {c : UInt8} {t : Bytes} : (∀ d ∈ ws, isSpace d) → Named name → c ≠ 34 →
    Unquoted (ws ++ (name ++ 61 :: c :: t))
  | next {ws name body t : Bytes} : (∀ d ∈ ws, isSpace d) → Named name → Body body → Unquoted t →
    Unquoted (ws ++ (name ++ 61 :: 34 :: (body ++ 34 :: t)))

/-- The text is made of complete assignments and white space. -/
inductive Complete : Bytes → Prop
  | spaces {ws : Bytes} : (∀ d ∈ ws, isSpace d) → Complete ws
  | next {ws name body t : Bytes} : (∀ d ∈ ws, isSpace d) → Named name → Body body → Complete t →
    Complete (ws ++ (name ++ 61 :: 34 :: (body ++ 34 :: t)))

theorem isSpace_ne_zero (h : isSpace c) : c ≠ 0 := by
  rintro rfl
  cases h

/-- What a round does when it gets to the `=` of an assignment -/
theorem mapLoop_assignment {ws : Bytes} (hws : ∀ d ∈ ws, isSpace d) (hname : Named name)
    (h0 : 0 ∉ name) (fuel : Nat) (q : UInt8) (rest : Bytes) (env : Env) :
    mapLoop (fuel + 1) (ws ++ (name ++ 61 :: q :: rest)) env =
      if q ≠ 34 then some (.fatal (.noOpeningQuote name))
      else
        match readValue false rest with
        | none => some .beyond
        | some (value, 34 :: rest) => mapLoop fuel rest (setenv env name value)
        | some _ => some (.fatal (.noClosingQuote name)) := by
  obtain ⟨c, t, hct, hc, hc0⟩ :
      ∃ c t, name ++ 61 :: q :: rest = c :: t ∧ isSpace c = false ∧ c ≠ 0 := by
    cases name with
    | nil => exact ⟨61, _, rfl, by decide, by decide⟩
    | cons c t => exact ⟨c, _, rfl, hname.head c t rfl, fun h => h0 (by simp [h])⟩
  have hskip : skipSpaces (ws ++ (name ++ 61 :: q :: rest)) = some (name ++ 61 :: q :: rest) := by
    rw [hct]
    exact skipSpaces_append hws hc t
  have hend : atEnd (name ++ 61 :: q :: rest) = false := by
    rw [hct]
    exact decide_eq_false hc0
  obtain ⟨d, u, hdu, hd0⟩ : ∃ d u, ws ++ (name ++ 61 :: q :: rest) = d :: u ∧ d ≠ 0 := by
    cases ws with
    | nil => exact ⟨c, t, hct, hc0⟩
    | cons d u => exact ⟨d, _, rfl, isSpace_ne_zero (hws d (by simp))⟩
  rw [hdu] at hskip ⊢
  rw [mapLoop, if_neg hd0, hskip]
  simp only [hend, Bool.false_eq_true, if_false, scanName_append hname.noEquals h0 (.inl rfl)]

theorem Unquoted.mapLoop (h : Unquoted a) (h0 : 0 ∉ a) {fuel : Nat}
    (hfuel : a.length < fuel) (env : Env) :
    ∃ e, mapLoop fuel a env = some (.fatal e) := by
  induction h generalizing fuel env with
  | @here ws name c t hws hname hc =>
    obtain ⟨k, rfl⟩ : ∃ k, fuel = k + 1 := ⟨fuel - 1, by omega⟩
    have h0' : 0 ∉ name := fun hm => h0 (by simp [hm])
    exact ⟨_, by rw [mapLoop_assignment hws hname h0', if_pos hc]⟩
  | @next ws name body t hws hname hbody _ ih =>
    obtain ⟨k, rfl⟩ : ∃ k, fuel = k + 1 := ⟨fuel - 1, by omega⟩
    have h0' : 0 ∉ name := fun hm => h0 (by simp [hm])
    obtain ⟨v, hv⟩ := readValue_body hbody (fun hm => h0 (by simp [hm])) (.inl rfl) t
    simp only [length_append, length_cons] at hfuel
    have hlen : t.length < k := by omega
    obtain ⟨e, he⟩ := ih (fun hm => h0 (by simp [hm])) hlen (setenv env name v)
    exact ⟨e, by rw [mapLoop_assignment hws hname h0', if_neg (by decide), hv]; exact he⟩

theorem Complete.mapLoop (h : Complete a) (h0 : 0 ∉ a) {fuel : Nat} (hfuel : a.length < fuel)
    (env : Env) (t : Bytes) :
    ∃ env', mapLoop fuel (a ++ 0 :: t) env = some (.done env' (0 :: t)) := by
  induction h generalizing fuel env with
  | @spaces ws hws =>
    obtain ⟨k, rfl⟩ : ∃ k, fuel = k + 1 := ⟨fuel - 1, by omega⟩
    refine ⟨env, ?_⟩
    cases ws with
    | nil => rfl
    | cons c ws =>
      have hskip : skipSpaces (c :: (ws ++ 0 :: t)) = some (0 :: t) := skipSpaces_append hws rfl t
      rw [cons_append, Runtime.mapLoop, if_neg (isSpace_ne_zero (hws c (by simp))), hskip]
      rfl
  | @next ws name body u hws hname hbody _ ih =>
    obtain ⟨k, rfl⟩ : ∃ k, fuel = k + 1 := ⟨fuel - 1, by omega⟩
    have h0' : 0 ∉ name := fun hm => h0 (by simp [hm])
    obtain ⟨v, hv⟩ := readValue_body hbody (fun hm => h0 (by simp [hm])) (.inl rfl) (u ++ 0 :: t)
    simp only [length_append, length_cons] at hfuel
    have hlen : u.length < k := by omega
    obtain ⟨env', henv⟩ := ih (fun hm => h0 (by simp [hm])) hlen (setenv env name v)
    refine ⟨env', ?_⟩
    simp only [append_assoc, cons_append]
    rw [mapLoop_assignment hws hname h0', if_neg (by decide), hv]
    exact henv

/-! ## Rounds -/

/-- What the end of the scan says about the mapping -/
def Ended.Tells (a : Bytes) : Ended → Prop
  | .beyond => 0 ∉ a
  | .fatal _ => 0 ∈ a ∨ Unquoted a
  | .done _ rest => ∃ f t, a = f ++ rest ∧ rest = 0 :: t ∧ 0 ∉ f ∧ Complete f

/-- A round ends the scan, or it leads to the next round, behind a complete assignment. -/
theorem mapLoop_round (fuel : Nat) (a : Bytes) (env : Env) :
    (∃ r, mapLoop (fuel + 1) a env = some r ∧ r.Tells a) ∨
      ∃ b rest env', mapLoop (fuel + 1) a env = mapLoop fuel rest env' ∧ a = b ++ rest ∧
        b ≠ [] ∧ 0 ∉ b ∧
        (Unquoted rest → Unquoted a) ∧ ∀ f, Complete f → Complete (b ++ f) := by
  cases a with
  | nil => exact .inl ⟨_, rfl, not_mem_nil⟩
  | cons c s =>
    rw [mapLoop]
    split_ifs with hc
    · exact .inl ⟨_, rfl, [], s, rfl, by rw [hc], not_mem_nil, .spaces nofun⟩
    cases hskip : skipSpaces (c :: s) with
    | none => exact .inl ⟨_, rfl, skipSpaces_none hskip⟩
    | some b =>
      obtain ⟨ws, hwsb, hws, d, u, rfl, hd⟩ := skipSpaces_some hskip
      have hws0 : 0 ∉ ws := fun hm => isSpace_ne_zero (hws 0 hm) rfl
      rw [hwsb]
      simp only
      split_ifs with hend
      · have hd0 : d = 0 := of_decide_eq_true hend
        exact .inl ⟨_, rfl, ws, u, rfl, by rw [hd0], hws0, .spaces hws⟩
      cases hscan : scanName (d :: u) with
      | none => exact .inl ⟨_, rfl, by simp [Ended.Tells, hws0, scanName_none hscan]⟩
      | some p =>
        obtain ⟨name, r⟩ := p
        obtain ⟨hdu, h61, h0, t, rfl | rfl⟩ := scanName_some hscan
        · have hname : Named name := by
            refine ⟨h61, ?_⟩
            rintro x y rfl
            obtain rfl : d = x := (cons.inj hdu).1
            exact hd
          rw [hdu]
          cases t with
          | nil => exact .inl ⟨_, rfl, by simp [Ended.Tells, hws0, h0]⟩
          | cons q rest =>
            simp only
            split_ifs with hq
            · exact .inl ⟨_, rfl, .inr (.here hws hname hq)⟩
            obtain rfl : q = 34 := not_not.1 hq
            cases hval : readValue false rest with
            | none => exact .inl ⟨_, rfl, by simp [Ended.Tells, hws0, h0, readValue_none hval]⟩
            | some p =>
              obtain ⟨v, r⟩ := p
              obtain ⟨body, rfl, hb0, ⟨⟨t, rfl⟩, hbody⟩ | ⟨t, rfl⟩⟩ := readValue_some hval
              · refine .inr ⟨ws ++ (name ++ 61 :: 34 :: (body ++ [34])), t, _, rfl,
                  by simp, by simp, ?_,
                  fun ht => .next hws hname hbody ht, fun f hf => ?_⟩
                · simp [hws0, h0, hb0]
                · simpa using Complete.next hws hname hbody hf
              · exact .inl ⟨_, rfl, .inl (by simp)⟩
        · refine .inl ⟨_, rfl, .inl ?_⟩
          rw [hdu]
          simp

theorem mapLoop_ends (fuel : Nat) (hfuel : a.length < fuel) (env : Env) :
    ∃ r, mapLoop fuel a env = some r ∧ r.Tells a := by
  induction fuel generalizing a env with
  | zero => omega
  | succ fuel ih =>
    rcases mapLoop_round fuel a env with h | ⟨b, rest, env', h, rfl, hb, h0, hun, hcomplete⟩
    · exact h
    · have hlen := length_pos_iff.2 hb
      rw [length_append] at hfuel
      obtain ⟨r, hr, htells⟩ := ih (a := rest) (by omega) env'
      refine ⟨r, h.trans hr, ?_⟩
      cases r with
      | beyond => simpa [Ended.Tells, h0] using htells
      | fatal e => exact htells.imp (mem_append_right b) hun
      | done env rest' =>
        obtain ⟨f, t, rfl, ht, hf, hf'⟩ := htells
        exact ⟨b ++ f, t, (append_assoc ..).symm, ht, by simp [h0, hf], hcomplete f hf'⟩

theorem pagePad_eq_zero_iff {page n : Nat} (hpage : 0 < page) : pagePad page n = 0 ↔ page ∣ n := by
  rw [pagePad, Nat.dvd_iff_mod_eq_zero]
  have hlt := Nat.mod_lt n hpage
  rcases Nat.eq_zero_or_pos (n % page) with h | h
  · simp [h]
  · rw [Nat.mod_eq_of_lt (by omega)]
    omega

theorem takeWhile_nul {f : Bytes} (h : 0 ∉ f) (t : Bytes) : (f ++ 0 :: t).takeWhile (· ≠ 0) = f :=
  takeWhile_stop (fun c hc => decide_eq_true fun e => h (e ▸ hc)) (by simp)

/-- The scan of a file is decided by its bytes if and only if they have no NUL byte and do not end
with a page or have an assignment without an opening quote, at which the scan gives up, or what
stands before the first NUL byte is not made of complete assignments. -/
theorem mapEnviron_safe_iff (page : Nat) (hpage : 0 < page) (file : Bytes) (env : Env) :
    Safe page file env ↔ file = [] ∨ 0 ∉ file ∧ (¬page ∣ file.length ∨ Unquoted file) ∨
      0 ∈ file ∧ ¬Complete (file.takeWhile (· ≠ 0)) := by
  by_cases hnil : file = []
  · exact iff_of_true (.inr ⟨env, [], by simp [mapEnviron, hnil], Nat.zero_le _⟩) (.inl hnil)
  simp only [Safe, mapEnviron, hnil, if_false, false_or]
  set pad := pagePad page file.length with hpad
  obtain ⟨r, hr, htells⟩ := mapLoop_ends (file.length + pad + 1)
    (a := file ++ replicate pad 0) (by simp) env
  -- where the scan stops at a NUL byte, this is the first one
  have hdone {env' : Env} {rest : Bytes}
      (h : (Ended.done env' rest).Tells (file ++ replicate pad 0)) :
      file ++ replicate pad 0 = (file ++ replicate pad 0).takeWhile (· ≠ 0) ++ rest ∧
        Complete ((file ++ replicate pad 0).takeWhile (· ≠ 0)) := by
    obtain ⟨f, t, heq, rfl, hf, hcomplete⟩ := h
    rw [heq, takeWhile_nul hf]
    exact ⟨rfl, hcomplete⟩
  rw [hr]
  by_cases h0 : 0 ∈ file
  · obtain ⟨f, t, hfile, hf⟩ := eq_append_cons_of_mem h0
    have hmap : file ++ replicate pad 0 = f ++ 0 :: (t ++ replicate pad 0) := by simp [hfile]
    have hfirst : file.takeWhile (· ≠ 0) = f := by rw [hfile, takeWhile_nul hf]
    simp only [h0, not_true, false_and, true_and, false_or, hfirst]
    rw [hmap] at hr hdone htells
    rw [takeWhile_nul hf] at hdone
    constructor
    · rintro hsafe hcomplete
      have hlen : f.length < file.length + pad + 1 := by simp only [hfile, length_append]; omega
      obtain ⟨env', henv⟩ := hcomplete.mapLoop hf hlen env (t ++ replicate pad 0)
      cases hr.symm.trans henv
      obtain ⟨e, ⟨⟩⟩ | ⟨env', rest, ⟨⟩, hle⟩ := hsafe
      simp only [length_cons, length_append, length_replicate] at hle
      omega
    · intro hnot
      cases r with
      | beyond => exact absurd (by simp) htells
      | fatal e => exact .inl ⟨e, rfl⟩
      | done env' rest => exact absurd (hdone htells).2 hnot
  · simp only [h0, not_false_iff, true_and, false_and, or_false]
    have hmap : (file ++ replicate pad 0).takeWhile (· ≠ 0) = file := by
      cases hp : pad with
      | zero => simpa using fun c hc (e : c = 0) => h0 (e ▸ hc)
      | succ k => exact takeWhile_nul h0 _
    rw [hmap] at hdone
    by_cases hdvd : page ∣ file.length
    · have hpad0 : pad = 0 := (pagePad_eq_zero_iff hpage).2 hdvd
      rw [hpad0, replicate_zero, append_nil] at hr htells hdone
      simp only [hdvd, not_true, false_or]
      cases r with
      | beyond =>
        refine iff_of_false (by simp) fun hun => ?_
        obtain ⟨e, he⟩ := hun.mapLoop h0 (Nat.lt_succ_self _) env
        cases hr.symm.trans he
      | fatal e => exact iff_of_true (.inl ⟨e, rfl⟩) (htells.resolve_left h0)
      | done env' rest =>
        obtain ⟨f, t, rfl, rfl, -⟩ := htells
        exact absurd (by simp) h0
    · have hpos : pad ≠ 0 := fun h => hdvd ((pagePad_eq_zero_iff hpage).1 h)
      refine iff_of_true ?_ (.inl hdvd)
      cases r with
      | beyond => exact absurd (mem_append_right _ (mem_replicate.2 ⟨hpos, rfl⟩)) htells
      | fatal e => exact .inl ⟨e, rfl⟩
      | done env' rest =>
        have hrest := append_cancel_left (hdone htells).1
        exact .inr ⟨env', rest, rfl, by rw [← hrest, length_replicate]⟩

/-- A file of six bytes -/
theorem mapEnviron_safe_six : 0 < 4096 ∧ Safe 4096 (text "A=\"1\"\n") [] :=
  ⟨by decide, (mapEnviron_safe_iff 4096 (by decide) _
    _).2 (.inr (.inl ⟨by decide +kernel, .inl (by decide +kernel)⟩))⟩

/-- A file of one page: `A=""` and newlines up to its end -/
theorem not_mapEnviron_safe : ¬Safe 4096 (text "A=\"\"" ++ List.replicate 4092 10) [] := by
  have hbeyond : mapEnviron 4096 (text "A=\"\"" ++ replicate 4092 10) [] = some .beyond := by
    decide +kernel
  rintro (⟨e, he⟩ | ⟨env, rest, he, -⟩) <;> cases hbeyond.symm.trans he

end MakeInitrd.Runtime
