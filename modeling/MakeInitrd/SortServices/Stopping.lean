import MakeInitrd.Lib.Words
import MakeInitrd.SortServices.Sorted

/-!
# Stopping what can be started

The services that stop at a runlevel are those that do not start there, and a few more if there are
headers `Default-Stop`. `create_deps` resolves the names that they require among themselves. So a
service whose requirement keeps running at a runlevel cannot be stopped there
(`not_stops_of_starts`). What is needed beyond starting is said by `StopsWell`.
-/

namespace MakeInitrd.SortServices

open CMem Relation Words List

/-!
## The opposite order

A service whose header says nothing about stopping takes over its lists for starting, but for
`X-Start-Before`.
-/

section
/-! ## The lists for stopping -/

/-- The line fills none of the lists of what to require or follow for stopping. -/
def NoStopHeader (l : Bytes) : Prop := fieldOf l ≠ some .kRequire ∧ fieldOf l ≠ some .kShould

instance (l : Bytes) : Decidable (NoStopHeader l) := inferInstanceAs (Decidable (_ ∧ _))

@[simp] theorem setlist_of_ne {s : Service} {f g : Field} (h : g ≠ f) (ws : List Bytes) :
    (s.setlist f ws).list g = s.list g := Function.update_of_ne h _ _

@[simp] theorem setlist_self (s : Service) (f : Field) (ws : List Bytes) :
    (s.setlist f ws).list f = s.list f ++ ws := Function.update_self _ _ _

theorem parseLines_stop {ls : List Bytes} (hls : ∀ l ∈ ls, NoStopHeader l) {block block' : Block}
    {kwds : List Field} {s s' : Service} (h : parseLines ls block kwds s = .ok (block', s')) :
    s'.list .kRequire = s.list .kRequire ∧ s'.list .kShould = s.list .kShould := by
  fun_induction parseLines ls block kwds s with
  | case1 => cases h; exact ⟨rfl, rfl⟩
  | case3 => cases h; exact ⟨rfl, rfl⟩
  | case4 => cases h; exact ⟨rfl, rfl⟩
  | case6 => cases h
  | case2 _ _ _ ih | case5 _ _ _ _ _ _ ih =>
    exact ih (fun l hl => hls l (mem_cons_of_mem _ hl)) h
  | case7 l ls kwds s _ _ f hf _ ih =>
    obtain ⟨h₁, h₂⟩ := hls l (by simp)
    have := ih (fun l hl => hls l (mem_cons_of_mem _ hl)) h
    rw [hf] at h₁ h₂
    rwa [setlist_of_ne fun e => h₁ (congrArg some e.symm), setlist_of_ne fun e =>
      h₂ (congrArg some e.symm)] at this
  | case8 _ _ _ _ _ _ _ _ ih => exact ih (fun l hl => hls l (mem_cons_of_mem _ hl)) h

theorem stop_lists_of_parse {path : Bytes} {executable : Bool} {lines : List Bytes} {s : Service}
    (h : parseService path executable lines = .ok (some s)) (hlines : ∀ l ∈ lines, NoStopHeader l) :
    s.list .kRequire = s.list .sRequire ∧ s.list .kShould = s.list .sShould := by
  rw [parseService] at h
  split_ifs at h
  split at h
  · cases h
  · cases h
  · cases h
  · next s' hparse =>
    cases h
    obtain ⟨hr, hs⟩ := parseLines_stop hlines hparse
    have hr' : s'.list .kRequire = [] := hr
    have hs' : s'.list .kShould = [] := hs
    simp [Service.complete, hr', hs']

/-! ## The constraints -/

section
variable (svcs : List Service) (l m : Bytes)

/-- All services have been parsed from files without headers for stopping. -/
def ParsedWithoutStop : Prop :=
  ∀ s ∈ svcs, ∃ path executable lines, parseService path executable lines = .ok (some s) ∧ ∀ x ∈
    lines, NoStopHeader x

/-- Service `v` requires `u` or should follow it for starting. -/
def Follows (u v : Nat) : Prop :=
  ∃ s, svcs[v]? = some s ∧ active svcs l .S v ∧ ∃ n ∈ s.list .sRequire ++ s.list .sShould,
    Provider svcs l .S u n

/-- Service `u` names `v` in `X-Start-Before`. -/
def StartBefore (u v : Nat) : Prop :=
  ∃ s, svcs[u]? = some s ∧ active svcs l .S u ∧ ∃ n ∈ s.list .sBefore, Provider svcs l .S v n

/-- Stopping at `m` mirrors starting at `l`. -/
def Mirrors : Prop :=
  ∀ a b, TransGen (Precedes svcs m .K) a b ↔ TransGen (Precedes svcs l .S) b a

end

variable {svcs : List Service} {l m : Bytes}

theorem precedes_start_iff {u v : Nat} :
    Precedes svcs l .S u v ↔ Follows svcs l u v ∨ StartBefore svcs l u v := Iff.rfl

theorem precedes_stop_iff (hparsed : ParsedWithoutStop svcs)
    (hact : ∀ i, active svcs l .S i = active svcs m .K i) {u v : Nat} :
    Precedes svcs m .K u v ↔ Follows svcs l v u := by
  have hprov (n : Bytes) : Provider svcs m .K v n ↔ Provider svcs l .S v n := by
    rw [Provider, Provider, hact]
  have hlists :
      ∀ s, svcs[u]? = some s → s.require .K = s.list .sRequire ∧ s.should .K = s.list .sShould := by
    intro s hs
    obtain ⟨path, ex, lines, hp, hl⟩ := hparsed s (mem_of_getElem? hs)
    exact stop_lists_of_parse hp hl
  simp only [Precedes, DependsOn, Service.before, not_mem_nil, false_and, exists_false,
    and_false, or_false, Follows, hprov, hact]
  refine exists_congr fun s => and_congr_right fun hs => ?_
  rw [(hlists s hs).1, (hlists s hs).2]

/-- Stopping mirrors starting if and only if every constraint from `X-Start-Before` follows from
what services require and should follow. -/
theorem stop_mirrors_start_iff (svcs : List Service) (l m : Bytes)
    (hparsed : ParsedWithoutStop svcs) (hact : ∀ i, active svcs l .S i = active svcs m .K i) :
    Mirrors svcs l m ↔ ∀ u v, StartBefore svcs l u v → TransGen (Follows svcs l) u v := by
  have hstop : Precedes svcs m .K = Function.swap (Follows svcs l) := by
    funext u v
    exact propext (precedes_stop_iff hparsed hact)
  have hmirror :
      Mirrors svcs l m ↔ ∀ b a, TransGen (Follows svcs l) b a ↔
        TransGen (Precedes svcs l .S) b a := by
    simp only [Mirrors, hstop, transGen_swap]
    exact forall_comm
  rw [hmirror]
  constructor
  · intro h u v hb
    exact (h u v).2 (.single (precedes_start_iff.2 (.inr hb)))
  · intro h b a
    have hle : Follows svcs l ≤ Precedes svcs l .S := fun _ _ hf => precedes_start_iff.2 (.inl hf)
    refine ⟨TransGen.mono hle b a, fun hp => ?_⟩
    induction hp with
    | single he => exact (precedes_start_iff.1 he).elim .single (h _ _)
    | tail _ he ih => exact (precedes_start_iff.1 he).elim ih.tail fun hb => ih.trans (h _ _ hb)

/-! ## Two services -/

/-- The headers of two services that start at runlevel 3 and stop elsewhere -/
def twoHeaders (first : List Bytes) : List (Bytes × List Bytes) :=
  [(text "a", [beginInfo, text "# Default-Start: 3"] ++ first ++ [endInfo]),
    (text "b", [beginInfo, text "# Default-Start: 3", endInfo])]

/-- The services with the given headers -/
def parsed (files : List (Bytes × List Bytes)) : List Service :=
  files.filterMap fun f =>
    match parseService f.1 true f.2 with
    | .ok s => s
    | .error _ => none

theorem parsedWithoutStop {files : List (Bytes × List Bytes)}
    (h : ∀ f ∈ files, ∀ x ∈ f.2, NoStopHeader x) : ParsedWithoutStop (parsed files) := by
  intro s hs
  obtain ⟨f, hf, hmatch⟩ := mem_filterMap.1 hs
  cases hp : parseService f.1 true f.2 with
  | error e => simp [hp] at hmatch
  | ok o =>
    rw [hp] at hmatch
    exact ⟨f.1, true, f.2, by rw [hp]; exact congrArg _ hmatch, h f hf⟩

theorem active_eq_of_lt (h : ∀ i < svcs.length, active svcs l .S i = active svcs m .K i) (i : Nat) :
    active svcs l .S i = active svcs m .K i := by
  by_cases hi : i < svcs.length
  · exact h i hi
  · rw [Bool.eq_iff_iff]
    exact ⟨fun ha => absurd (lt_of_active ha) hi, fun ha => absurd (lt_of_active ha) hi⟩

/-- `# Required-Start: b` -/
def requiresB : List (Bytes × List Bytes) :=
  twoHeaders [text "# Required-Start: b"]

/-- `# X-Start-Before: b` -/
def startsBeforeB : List (Bytes × List Bytes) :=
  twoHeaders [text "# X-Start-Before: b"]

theorem stop_mirrors_start_required : Mirrors (parsed requiresB) (text "3") (text "0") := by
  refine (stop_mirrors_start_iff (parsed requiresB) (text "3") (text "0")
    (parsedWithoutStop (by decide))
    (active_eq_of_lt (by decide))).2 ?_
  rintro u v ⟨s, hs, -, n, hn, -⟩
  have hnone : ∀ s ∈ parsed requiresB, s.list .sBefore = [] := by decide
  rw [hnone s (mem_of_getElem? hs)] at hn
  cases hn

/-- A service that starts before another one may stop before it too. -/
theorem not_stop_mirrors_start :
    ∃ svcs l m, ParsedWithoutStop svcs ∧ (∀ i, active svcs l .S i = active svcs m .K i) ∧
      ¬Mirrors svcs l m := by
  have hparsed : ParsedWithoutStop (parsed startsBeforeB) := parsedWithoutStop (by decide)
  have hact :
      ∀ i, active (parsed startsBeforeB) (text "3") .S i =
        active (parsed startsBeforeB) (text "0") .K i :=
    active_eq_of_lt (by decide)
  refine ⟨parsed startsBeforeB, text "3", text "0", hparsed, hact, fun hmirror => ?_⟩
  have hstart : Precedes (parsed startsBeforeB) (text "3") .S 0 1 :=
    .inr ⟨_, rfl, by decide, text "b", by decide, by decide, by decide⟩
  have hempty : ∀ s ∈ parsed startsBeforeB, s.list .sRequire ++ s.list .sShould = [] := by decide
  have hstop : ∀ u v, ¬Precedes (parsed startsBeforeB) (text "0") .K u v := by
    intro u v hp
    obtain ⟨s, hs, -, n, hn, -⟩ := (precedes_stop_iff hparsed hact).1 hp
    rw [hempty s (mem_of_getElem? hs)] at hn
    cases hn
  cases (hmirror 1 0).2 (.single hstart) with
  | single h => exact hstop _ _ h
  | tail _ h => exact hstop _ _ h

end

/-! ## What can be stopped -/

section
variable (svcs : List Service)

/-- The services can be ordered for starting at every runlevel. -/
def Starts : Prop := ∀ l ∈ knownLevels, (sortRunlevel svcs l .S).isOk

/-- The services can be ordered for stopping at every runlevel. -/
def Stops : Prop := ∀ m ∈ knownLevels, (sortRunlevel svcs m .K).isOk

instance : Decidable (Starts svcs) := inferInstanceAs (Decidable (∀ l ∈ knownLevels, _))

instance : Decidable (Stops svcs) := inferInstanceAs (Decidable (∀ l ∈ knownLevels, _))

/-- Services `u` and `v` stop at a runlevel, and `u` requires `v` or should follow it for starting.
-/
def StopFollows (m : Bytes) (u v : Nat) : Prop :=
  ∃ s, svcs[u]? = some s ∧ active svcs m .K u ∧ ∃ n ∈ s.list .sRequire ++ s.list .sShould,
    Provider svcs m .K v n

/-- What the services that stop at a runlevel have to meet: required names are provided among them,
no two that never start together provide one name, none that never starts names itself, and there is
no cycle among them. -/
structure StopsWell (m : Bytes) : Prop where
  resolve : ∀ i s, svcs[i]? = some s → active svcs m .K i → ∀ n ∈ s.list .sRequire, ∃ j,
    Provider svcs m .K j n
  unique : ∀ i j n, Provider svcs m .K i n → Provider svcs m .K j n →
    (¬∃ l ∈ knownLevels, active svcs l .S i ∧ active svcs l .S j) → i = j
  notSelf : ∀ i s, svcs[i]? = some s → active svcs m .K i →
    (¬∃ l ∈ knownLevels, active svcs l .S i) →
    ∀ n ∈ s.list .sRequire ++ s.list .sShould, ¬Provider svcs m .K i n
  acyclic : ¬∃ i, TransGen (StopFollows svcs m) i i

end

variable {svcs : List Service} {m : Bytes}

theorem stop_lists (hparsed : ParsedWithoutStop svcs) {i : Nat} {s : Service}
    (hs : svcs[i]? = some s) :
    s.require .K = s.list .sRequire ∧ s.should .K = s.list .sShould := by
  obtain ⟨path, ex, lines, hp, hl⟩ := hparsed s (mem_of_getElem? hs)
  exact stop_lists_of_parse hp hl

theorem precedes_stop_eq (hparsed : ParsedWithoutStop svcs) :
    Precedes svcs m .K = StopFollows svcs m := by
  funext u v
  simp only [Precedes, DependsOn, Service.before, not_mem_nil, false_and, exists_false,
    and_false, or_false, StopFollows, eq_iff_iff]
  refine exists_congr fun s => and_congr_right fun hs => ?_
  rw [(stop_lists hparsed hs).1, (stop_lists hparsed hs).2]

theorem Starts.wellNamed (h : Starts svcs) {l : Bytes} (hl : l ∈ knownLevels) :
    WellNamed svcs l .S :=
  (sortRunlevel_isOk_iff.1 (h l hl)).1

theorem StopsWell.wellNamed (hparsed : ParsedWithoutStop svcs) (hstart : Starts svcs)
    (h : StopsWell svcs m) :
    WellNamed svcs m .K where
  resolve i s hs hact := by
    rw [(stop_lists hparsed hs).1]
    exact h.resolve i s hs hact
  unique i j n hi hj := by
    by_cases hcommon : ∃ l ∈ knownLevels, active svcs l .S i ∧ active svcs l .S j
    · obtain ⟨l, hl, hli, hlj⟩ := hcommon
      exact (hstart.wellNamed hl).unique i j n ⟨hli, hi.2⟩ ⟨hlj, hj.2⟩
    · exact h.unique i j n hi hj hcommon
  notSelf i s hs hact n hn hprov := by
    rw [(stop_lists hparsed hs).1, (stop_lists hparsed hs).2, Service.before, append_nil] at hn
    by_cases hstarts : ∃ l ∈ knownLevels, active svcs l .S i
    · obtain ⟨l, hl, hli⟩ := hstarts
      exact (hstart.wellNamed hl).notSelf i s hs hli n (mem_append_left _ hn) ⟨hli, hprov.2⟩
    · exact h.notSelf i s hs hact hstarts n hn hprov

theorem WellNamed.stopsWell (hparsed : ParsedWithoutStop svcs) (h : WellNamed svcs m .K)
    (hacyclic : ¬∃ i, TransGen (Precedes svcs m .K) i i) : StopsWell svcs m where
  resolve i s hs hact := by
    rw [← (stop_lists hparsed hs).1]
    exact h.resolve i s hs hact
  unique i j n hi hj _ := h.unique i j n hi hj
  notSelf i s hs hact _ n hn := by
    refine h.notSelf i s hs hact n ?_
    rw [(stop_lists hparsed hs).1, (stop_lists hparsed hs).2]
    exact mem_append_left _ hn
  acyclic := by rwa [← precedes_stop_eq hparsed]

/-- Services without headers for stopping that can be ordered for starting at every runlevel can be
ordered for stopping at every runlevel if and only if at each of them those that stop fit together.
-/
theorem stops_iff (svcs : List Service) (hparsed : ParsedWithoutStop svcs) (hstart : Starts svcs) :
    Stops svcs ↔ ∀ m ∈ knownLevels, StopsWell svcs m := by
  refine forall₂_congr fun m _ => ?_
  rw [sortRunlevel_isOk_iff]
  constructor
  · rintro ⟨hnamed, hacyclic⟩
    exact hnamed.stopsWell hparsed hacyclic
  · intro h
    refine ⟨h.wellNamed hparsed hstart, ?_⟩
    rw [precedes_stop_eq hparsed]
    exact h.acyclic

/-- Two services that start at runlevel 3, one of which requires the other -/
theorem stops_iff_required :
    Starts (parsed requiresB) ∧ ∀ m ∈ knownLevels, StopsWell (parsed requiresB) m :=
  have hstart : Starts (parsed requiresB) := by decide +kernel
  ⟨hstart, (stops_iff _ (parsedWithoutStop (by decide)) hstart).1 (by decide +kernel)⟩

/-- Service `a` starts at runlevels 3 and 5, and `b`, which requires it, at 3 only. -/
def requiresRunning : List (Bytes × List Bytes) :=
  [(text "a", [beginInfo, text "# Default-Start: 3 5", endInfo]),
    (text "b", [beginInfo, text "# Default-Start: 3", text "# Required-Start: a", endInfo])]

/-- At runlevel 5 service `b` stops and `a` does not, so the name that `b` requires is unknown. -/
theorem not_stops_of_starts : ParsedWithoutStop (parsed requiresRunning) ∧
      (∀ f ∈ requiresRunning, ∀ x ∈ f.2, fieldOf x ≠ some .sBefore) ∧
      Starts (parsed requiresRunning) ∧ ¬Stops (parsed requiresRunning) :=
  ⟨parsedWithoutStop (by decide +kernel), by decide +kernel, by decide +kernel, by decide +kernel⟩

end MakeInitrd.SortServices
