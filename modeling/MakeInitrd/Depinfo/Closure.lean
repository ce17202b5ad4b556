import MakeInitrd.Depinfo.Modules
import MakeInitrd.Lib.Dfs

/-!
# The dependency closure

The functions of `depinfo` that call each other are one depth-first search over the modules. What
each of them enters, shows and returns is described in the same way (`Searches`), so that a loop
over calls does what the calls do. A run shows the path of every module that is reached, once, and
fails if something on the way is missing (`processNames_closure`).
-/

namespace MakeInitrd.Depinfo

open CMem Dfs List
open Words (text)

section
variable {M : Type} (env : Env M)

/-! ## Modules and names -/

/-- A module that libkmod or the table of the kernel takes for a builtin. -/
def Env.Builtin (m : M) : Prop :=
  env.kmod.builtin m = true ∨ (findKernelBuiltin env (env.kmod.name m)).isSome

/-- A module of a list that `depinfo` is called for. -/
def Env.Proceeds (m : M) : Prop :=
  (env.useBlacklist = true → env.kmod.blacklisted m = false) ∧ ¬env.Builtin m

/-- The name is no builtin and leads to the module. -/
def Env.Finds (name : Bytes) (m : M) : Prop :=
  (findKernelBuiltin env name).isSome = false ∧
    (∃ list, env.kmod.lookup name = some list ∧ m ∈ list) ∧ env.Proceeds m

/-- The name is no builtin and leads to nothing. -/
def Env.Unresolved (name : Bytes) : Prop :=
  (findKernelBuiltin env name).isSome = false ∧
    (env.kmod.lookup name = none ∨ env.kmod.lookup name = some [])

/-- The names in an entry of module information, with those that have to be there. -/
def names : InfoKey × Bytes → AliasNeed × List Bytes
  | (.depends, val) => (.required, tokens (44 :: blanks) val)
  | (.softdep, val) => (.optional, (tokens blanks val).filterMap softToken)
  | (.weakdep, val) => (.optional, tokens blanks val)
  | _ => (.optional, [])

/-- A module whose information can be read leads to another one. -/
inductive Env.Leads (m m' : M) : Prop
  | info {list : List (InfoKey × Bytes)} {entry : InfoKey × Bytes} {name : Bytes} :
    env.kmod.info m = some list → entry ∈ list → name ∈ (names entry).2 →
      env.Finds name m' → Leads m m'
  | softdeps {list : List (InfoKey × Bytes)} {pre post : List M} :
    env.kmod.info m = some list → env.kmod.softdeps m = some (pre, post) → m' ∈ pre ++ post →
    env.Proceeds m' → Leads m m'
  | weakdeps {list : List (InfoKey × Bytes)} {weak : List M} :
    env.kmod.info m = some list → env.kmod.weakdeps m = some weak → m' ∈ weak → env.Proceeds m' →
    Leads m m'

/-- The information about the module cannot be read, or it depends on a name that leads to nothing.
-/
def Env.Broken (m : M) : Prop :=
  env.kmod.info m = none ∨ ∃ list entry name, env.kmod.info m = some list ∧ entry ∈ list ∧
    (names entry).1 = .required ∧ name ∈ (names entry).2 ∧ env.Unresolved name

/-- Modules, marked by their paths. -/
def Env.graph : Dfs.Graph M Bytes where
  key m := (env.kmod.path m).getD []
  succ m := {m' | env.Leads m m'}

/-- A module is found from an argument, or from a module that is reached and whose information can
be read. -/
def Env.Reached (args : List Bytes) : M → Prop :=
  env.graph.Reach {m | ∃ name ∈ args, env.Finds name m}

/-- The paths that have been shown as modules. -/
def shownModules (out : List Output) : List Bytes :=
  out.filterMap fun
    | .shown _ _ .module path => some path
    | _ => none

/-! ## What a call does -/

/-- A call that starts in `s` from the modules `A` returns `failed` and leaves `s'`. It enters
modules, shows the paths of those whose information can be read, and fails if one of them is broken
or for the reason `err`. -/
def Searches (A : Set M) (err : Prop) (s : State) (failed : Bool) (s' : State) : Prop :=
  ∃ ms, Visits env.graph A s.tracked s'.tracked ms ∧ shownModules s'.out =
      shownModules s.out ++ (ms.filter fun m => (env.kmod.info m).isSome).map env.graph.key ∧
    (failed = true ↔ err ∨ ∃ m ∈ ms, env.Broken m)

variable {env} {A B : Set M} {err err' : Prop} {s s₁ s' : State} {failed failed' : Bool}

theorem Searches.congr (h : Searches env A err s failed s') (hA : A = B) (herr : err ↔ err') :
    Searches env B err' s failed s' := by
  obtain ⟨ms, hvisits, hshown, hfailed⟩ := h
  exact ⟨ms, hA ▸ hvisits, hshown, hfailed.trans (or_congr_left herr)⟩

/-- No module was marked or shown. -/
def Quiet (s s' : State) : Prop :=
  s'.tracked = s.tracked ∧ shownModules s'.out = shownModules s.out

theorem Quiet.refl (s : State) : Quiet s s :=
  ⟨rfl, rfl⟩

theorem Quiet.trans (h : Quiet s s₁) (h' : Quiet s₁ s') : Quiet s s' :=
  ⟨h'.1.trans h.1, h'.2.trans h.2⟩

theorem Quiet.searches (h : Quiet s s') (failed : Bool) :
    Searches env ∅ (failed = true) s failed s' := by
  refine ⟨[], ?_, ?_, ?_⟩
  · rw [h.1]
    exact Visits.nil _
  · simpa using h.2
  · simp

theorem Searches.trans (h : Searches env A err s failed s₁)
    (h' : Searches env B err' s₁ failed' s') :
    Searches env (A ∪ B) (err ∨ err') s (failed || failed') s' := by
  obtain ⟨ms, hvisits, hshown, hfailed⟩ := h
  obtain ⟨ms', hvisits', hshown', hfailed'⟩ := h'
  refine ⟨ms ++ ms', hvisits.trans hvisits', ?_, ?_⟩
  · rw [hshown', hshown, filter_append, map_append, append_assoc]
  · rw [Bool.or_eq_true, hfailed, hfailed']
    simp only [mem_append, or_and_right, exists_or]
    exact or_or_or_comm

section

/-- With enough fuel for the modules of `U` that are not marked, a call has a result, and it does as
said. -/
def Completes (env : Env M) (U : Finset M) (n : Nat) (call : State → Option (Bool × State))
    (A : Set M) (err : Prop) :
    Prop :=
  ∀ s, Visits.left env.graph U s.tracked < n → ∃ failed s', call s = some (failed, s') ∧
    Searches env A err s failed s'

variable {U : Finset M} {n : Nat} {call : State → Option (Bool × State)}

theorem Completes.congr (h : Completes env U n call A err) (hA : A = B) (herr : err ↔ err') :
    Completes env U n call B err' := by
  intro s hs
  obtain ⟨failed, s', hcall, hsearch⟩ := h s hs
  exact ⟨failed, s', hcall, hsearch.congr hA herr⟩

theorem Completes.forEach {α : Type} {call : α → State → Option (Bool × State)} {A : α → Set M}
    {err : α → Prop} {xs : List α} (h : ∀ x ∈ xs, Completes env U n (call x) (A x) (err x)) :
    Completes env U n (forEach call xs) (⋃ x ∈ xs, A x) (∃ x ∈ xs, err x) := by
  induction xs with
  | nil =>
    have hnil : Completes env U n (Depinfo.forEach call []) ∅ (false = true) :=
      fun s _ => ⟨false, s, rfl, (Quiet.refl s).searches false⟩
    exact hnil.congr (by simp) (by simp)
  | cons x xs ih =>
    have hcons : Completes env U n (Depinfo.forEach call (x :: xs)) (A x ∪ ⋃ x ∈ xs, A x)
        (err x ∨ ∃ x ∈ xs, err x) := by
      intro s hs
      obtain ⟨failed, s₁, hcall, hsearch⟩ := h x (.head _) s hs
      have hs₁ : Visits.left env.graph U s₁.tracked < n := by
        obtain ⟨ms, hvisits, -⟩ := hsearch
        exact hvisits.left_le.trans_lt hs
      obtain ⟨failed', s', hloop, hsearch'⟩ := ih (fun y hy => h y (.tail _ hy)) s₁ hs₁
      refine ⟨failed || failed', s', ?_, hsearch.trans hsearch'⟩
      unfold Depinfo.forEach
      rw [hcall]
      simp only [Option.bind_eq_bind, Option.bind_some, hloop]
    exact hcons.congr (by simp) (by simp)

end

/-! ## Builtins and firmware -/

theorem Quiet.foldl {α : Type} {f : State → α → State} (hf : ∀ s x, Quiet s (f s x)) (xs : List α)
    (s : State) : Quiet s (xs.foldl f s) := by
  induction xs generalizing s with
  | nil => exact .refl s
  | cons x xs ih => exact (hf s x).trans (ih _)

theorem quiet_write {o : Output}
    (h : ∀ indent prefixed path, o ≠ .shown indent prefixed .module path)
    (s : State) : Quiet s (s.write o) := by
  refine ⟨rfl, ?_⟩
  unfold State.write shownModules
  rw [filterMap_append]
  refine append_right_eq_self.2 ?_
  cases o with
  | shown indent prefixed keyword value =>
    cases keyword with
    | module => exact absurd rfl (h indent prefixed value)
    | _ => rfl
  | _ => rfl

theorem quiet_showWithPrefix (env : Env M) (keyword : Keyword) (h : keyword ≠ .module)
    (value : Bytes) (s : State) :
    Quiet s (showWithPrefix env s keyword value) :=
  quiet_write (fun _ _ _ heq => h (by injection heq)) s

theorem quiet_expandPattern (env : Env M) (pattern : Bytes) (s : State) :
    Quiet s (expandPattern env .firmware pattern s).2 := by
  unfold expandPattern
  split
  · exact quiet_showWithPrefix env .firmware nofun pattern s
  · exact Quiet.foldl (fun s path => quiet_showWithPrefix env .firmware nofun path s) _ s

theorem quiet_expandFirst (env : Env M) (patterns : List Bytes) (s : State) :
    Quiet s (expandFirst env patterns s).2 := by
  induction patterns generalizing s with
  | nil => exact .refl s
  | cons pattern patterns ih =>
    have hfirst := quiet_expandPattern env pattern s
    unfold expandFirst
    split
    · next s₁ hs₁ =>
      rw [hs₁] at hfirst
      exact hfirst
    · next s₁ hs₁ =>
      rw [hs₁] at hfirst
      exact hfirst.trans (ih s₁)

theorem quiet_processFirmwarePattern (env : Env M) (basedir pattern : Bytes) (s : State) :
    Quiet s (processFirmwarePattern env basedir pattern s).2 := by
  unfold processFirmwarePattern
  split
  · exact quiet_write (o := .firmwarePathTooLong basedir) (fun _ _ _ => nofun) s
  · exact quiet_expandFirst env _ s

theorem quiet_processFirmwareDirs (env : Env M) (pattern : Bytes) (dirs : List Bytes) (s : State) :
    Quiet s (processFirmwareDirs env pattern dirs s) := by
  induction dirs generalizing s with
  | nil =>
    unfold processFirmwareDirs
    split
    · exact quiet_showWithPrefix env .missingFirmware nofun pattern s
    · exact .refl s
  | cons dir dirs ih =>
    have hdir := quiet_processFirmwarePattern env dir pattern s
    unfold processFirmwareDirs
    split
    · next s₁ hs₁ =>
      rw [hs₁] at hdir
      exact hdir
    · next s₁ hs₁ =>
      rw [hs₁] at hdir
      exact hdir.trans (ih s₁)

theorem quiet_processFirmware (env : Env M) (pattern : Bytes) (s : State) :
    Quiet s (processFirmware env pattern s) :=
  quiet_processFirmwareDirs env pattern _ s

theorem quiet_showBuiltin (env : Env M) (name : Bytes) (firmware : List Bytes) (s : State) :
    Quiet s (showBuiltin env name firmware s) := by
  have hdeeper (s : State) : Quiet s s.deeper := ⟨rfl, rfl⟩
  have hname :
      Quiet s (if env.opts.showBuiltin then
        (showWithPrefix env s .builtin name).deeper else s) := by
    split
    · exact (quiet_showWithPrefix env .builtin nofun name s).trans (hdeeper _)
    · exact .refl s
  have hfirmware (s : State) : Quiet s (if env.opts.showFirmware then
      firmware.foldl (fun s pattern => processFirmware env pattern s) s else s) := by
    split
    · exact Quiet.foldl (fun s pattern => quiet_processFirmware env pattern s) firmware s
    · exact .refl s
  have hlast (s : State) : Quiet s (if env.opts.showBuiltin then s.higher else s) := by
    split
    · exact ⟨rfl, rfl⟩
    · exact .refl s
  exact (hname.trans (hfirmware _)).trans (hlast _)

theorem quiet_processBuiltin (env : Env M) (name : Bytes) (s : State) :
    Quiet s (processBuiltin env name s) := by
  unfold processBuiltin
  split
  · exact quiet_showBuiltin env name [] s
  · split
    · exact .refl s
    · next b _ _ =>
      have hmark : Quiet s { s with trackedBuiltins := b.name :: s.trackedBuiltins } := ⟨rfl, rfl⟩
      exact hmark.trans (quiet_showBuiltin env b.name b.firmware _)

/-! ## Lists of modules and names -/

theorem mem_applyBlacklist {m : M} {list : List M} : m ∈ applyBlacklist env list ↔
    m ∈ list ∧ (env.useBlacklist = true → env.kmod.blacklisted m = false) := by
  unfold applyBlacklist
  split
  · next h => simp [mem_filter, h]
  · next h => simp [h]

section
variable {U : Finset M} {n : Nat} {call : M → State → Option (Bool × State)}

theorem Completes.of_quiet {call : State → Option (Bool × State)} {f : State → State}
    (hcall : ∀ s, call s = some (failed, f s)) (hquiet : ∀ s, Quiet s (f s)) :
    Completes env U n call ∅ (failed = true) :=
  fun s _ => ⟨failed, f s, hcall s, (hquiet s).searches failed⟩

/-- `depinfo` does for a module what it has to. -/
def Recurses (env : Env M) (U : Finset M) (n : Nat) (call : M → State → Option (Bool × State)) :
    Prop :=
  ∀ m ∈ U, env.Proceeds m → Completes env U n (call m) {m} False

/-- Of a list of modules those are entered that are left by the filters and are no builtins. -/
theorem completes_processModuleList (h : Recurses env U n call) (list : List M)
    (hU : ∀ m ∈ list, env.Proceeds m → m ∈ U) :
    Completes env U n (processModuleList env call list) {m | m ∈ list ∧ env.Proceeds m} False := by
  -- the loop over the modules that the filter for builtins has left
  have hloop : Completes env U n (forEach (fun m s =>
        if (findKernelBuiltin env (env.kmod.name m)).isSome then
          some (false, processBuiltin env (env.kmod.name m) s)
        else call m s) ((applyBlacklist env list).filter fun m => !env.kmod.builtin m))
      {m | m ∈ list ∧ env.Proceeds m} False := by
    have hstep : ∀ m ∈ (applyBlacklist env list).filter fun m => !env.kmod.builtin m,
        Completes env U n (fun s =>
          if (findKernelBuiltin env (env.kmod.name m)).isSome then
            some (false, processBuiltin env (env.kmod.name m) s)
          else call m s) {m' | m' = m ∧ env.Proceeds m} False := by
      intro m hm
      obtain ⟨hlist, hbuiltin⟩ := mem_filter.1 hm
      cases hfind : (findKernelBuiltin env (env.kmod.name m)).isSome with
      | true =>
        have hnot : ¬env.Proceeds m := fun hp => hp.2 (.inr hfind)
        refine (Completes.of_quiet (fun _ => rfl) (quiet_processBuiltin env _)).congr ?_ (by simp)
        ext m'
        simp [hnot]
      | false =>
        have hp : env.Proceeds m := ⟨(mem_applyBlacklist.1 hlist).2, by
          unfold Env.Builtin
          simpa [hfind] using hbuiltin⟩
        have hm' : m ∈ U := hU m (mem_applyBlacklist.1 hlist).1 hp
        refine (h m hm' hp).congr ?_ Iff.rfl
        ext m'
        simp [hp]
    refine (Completes.forEach hstep).congr ?_ (by simp)
    ext m
    simp only [Set.mem_iUnion, mem_filter, mem_applyBlacklist, Set.mem_ofPred_eq, exists_prop]
    constructor
    · rintro ⟨m', ⟨⟨hmem, -⟩, -⟩, rfl, hp⟩
      exact ⟨hmem, hp⟩
    · rintro ⟨hmem, hp⟩
      refine ⟨m, ⟨⟨hmem, hp.1⟩, ?_⟩, rfl, hp⟩
      have hnot := hp.2
      unfold Env.Builtin at hnot
      simp only [not_or, Bool.not_eq_true] at hnot
      simp [hnot.1]
  intro s hs
  have hbuiltins : Quiet s ((applyBlacklist env list).foldl (fun s m =>
      if moduleInList env m ((applyBlacklist env list).filter fun m => !env.kmod.builtin m) then s
      else processBuiltin env (env.kmod.name m) s) s) := by
    refine Quiet.foldl (fun s m => ?_) _ s
    split
    · exact .refl s
    · exact quiet_processBuiltin env _ s
  obtain ⟨failed, s', hcall, hsearch⟩ := hloop _ (by rwa [hbuiltins.1])
  refine ⟨failed, s', hcall, ?_⟩
  exact ((hbuiltins.searches false).trans hsearch).congr (Set.empty_union _) (by simp)

/-- The modules that a name leads to are entered; the call fails if the name has to lead to
something and does not. -/
theorem completes_depinfoAlias (h : Recurses env U n call) (need : AliasNeed) (name : Bytes)
    (hU : ∀ m, env.Finds name m → m ∈ U) :
    Completes env U n (depinfoAlias env call need name) {m | env.Finds name m}
      (need = .required ∧ env.Unresolved name) := by
  unfold depinfoAlias
  cases hfind : (findKernelBuiltin env name).isSome with
  | true =>
    refine (Completes.of_quiet (fun _ => rfl) (quiet_processBuiltin env name)).congr ?_ ?_
    · ext m
      simp [Env.Finds, hfind]
    · simp [Env.Unresolved, hfind]
  | false =>
    -- the name leads to nothing
    have hnothing {o : Output}
        (ho : ∀ indent prefixed path, o ≠ .shown indent prefixed .module path)
        (hlookup : env.kmod.lookup name = none ∨ env.kmod.lookup name = some []) :
        Completes env U n (fun s => if need = .optional then some (false, s)
          else some (true, s.write o))
          {m | env.Finds name m} (need = .required ∧ env.Unresolved name) := by
      have hempty : ∅ = {m | env.Finds name m} := by
        ext m
        rcases hlookup with h | h <;> simp [Env.Finds, h]
      have hunresolved : env.Unresolved name := ⟨hfind, hlookup⟩
      cases need with
      | optional => exact (Completes.of_quiet (fun _ => rfl) Quiet.refl).congr hempty (by simp)
      | required =>
        exact (Completes.of_quiet (fun _ => rfl) (quiet_write ho)).congr hempty
          (by simp [hunresolved])
    cases hlookup : env.kmod.lookup name with
    | none => exact hnothing (o := .aliasNotFound name) (fun _ _ _ => nofun) (.inl hlookup)
    | some list =>
      cases list with
      | nil => exact hnothing (o := .moduleNotFound name) (fun _ _ _ => nofun) (.inr hlookup)
      | cons m list =>
        refine (completes_processModuleList h (m :: list) fun m' hm' hp =>
          hU m' ⟨hfind, ⟨_, hlookup, hm'⟩, hp⟩).congr ?_ ?_
        · ext m'
          simp [Env.Finds, hfind, hlookup]
        · simp [Env.Unresolved, hlookup]

theorem completes_processInfo (hopts : env.opts = .default) (h : Recurses env U n call)
    (entry : InfoKey × Bytes) (hU : ∀ name ∈ (names entry).2, ∀ m, env.Finds name m → m ∈ U) :
    Completes env U n (processInfo env call entry) {m | ∃ name ∈ (names entry).2, env.Finds name m}
      (∃ name ∈ (names entry).2, (names entry).1 = .required ∧ env.Unresolved name) := by
  have halias (need : AliasNeed) (list : List Bytes)
      (hU : ∀ name ∈ list, ∀ m, env.Finds name m → m ∈ U) :
      Completes env U n (forEach (depinfoAlias env call need) list)
        {m | ∃ name ∈ list, env.Finds name m}
        (∃ name ∈ list, need = .required ∧ env.Unresolved name) := by
    refine (Completes.forEach fun name hname =>
      completes_depinfoAlias h need name (hU name hname)).congr ?_ Iff.rfl
    ext m
    simp
  obtain ⟨key, val⟩ := entry
  unfold processInfo
  rw [hopts]
  cases key with
  | depends => exact halias .required _ hU
  | softdep => exact halias .optional _ hU
  | weakdep => exact halias .optional _ hU
  | firmware =>
    exact (Completes.of_quiet (fun _ => rfl) (quiet_processFirmware env val)).congr
      (by simp [names]) (by simp [names])
  | other =>
    exact (Completes.of_quiet (fun _ => rfl) Quiet.refl).congr (by simp [names]) (by simp [names])

theorem completes_processSoftDeps (h : Recurses env U n call) (m : M)
    (hU : ∀ pre post, env.kmod.softdeps m = some (pre, post) → ∀ m' ∈ pre ++ post,
      env.Proceeds m' → m' ∈ U) :
    Completes env U n (processSoftDeps env call m)
      {m' | ∃ pre post, env.kmod.softdeps m = some (pre, post) ∧ m' ∈ pre ++ post ∧ env.Proceeds m'}
      False := by
  unfold processSoftDeps
  cases hdeps : env.kmod.softdeps m with
  | none => exact (Completes.of_quiet (fun _ => rfl) Quiet.refl).congr (by simp) (by simp)
  | some lists =>
    obtain ⟨pre, post⟩ := lists
    refine (Completes.forEach fun list hlist => completes_processModuleList h list fun m' hm' hp =>
      hU pre post hdeps m' ?_ hp).congr ?_ (by simp)
    · simp only [mem_cons, not_mem_nil, or_false] at hlist
      rcases hlist with rfl | rfl
      · exact mem_append_left _ hm'
      · exact mem_append_right _ hm'
    ext m'
    simp [or_and_right]

theorem completes_processWeakDeps (h : Recurses env U n call) (m : M)
    (hU : ∀ weak, env.kmod.weakdeps m = some weak → ∀ m' ∈ weak, env.Proceeds m' → m' ∈ U) :
    Completes env U n (processWeakDeps env call m)
      {m' | ∃ weak, env.kmod.weakdeps m = some weak ∧ m' ∈ weak ∧ env.Proceeds m'} False := by
  unfold processWeakDeps
  cases hdeps : env.kmod.weakdeps m with
  | none => exact (Completes.of_quiet (fun _ => rfl) Quiet.refl).congr (by simp) (by simp)
  | some weak =>
    refine (completes_processModuleList h weak (hU weak hdeps)).congr ?_ Iff.rfl
    ext m'
    simp

end

/-! ## The search -/

/-- The depends of the module lead to nothing. -/
def Env.Lacks (env : Env M) (list : List (InfoKey × Bytes)) : Prop :=
  ∃ entry ∈ list, ∃ name ∈ (names entry).2, (names entry).1 = .required ∧ env.Unresolved name

theorem broken_iff {m : M} {list : List (InfoKey × Bytes)} (hinfo : env.kmod.info m = some list) :
    env.Broken m ↔ env.Lacks list := by
  unfold Env.Broken Env.Lacks
  rw [hinfo]
  constructor
  · rintro (h | ⟨_, entry, name, ⟨⟩, hentry, hreq, hname, hun⟩)
    · cases h
    · exact ⟨entry, hentry, name, hname, hreq, hun⟩
  · rintro ⟨entry, hentry, name, hname, hreq, hun⟩
    exact .inr ⟨list, entry, name, rfl, hentry, hreq, hname, hun⟩

theorem shownModules_showModule (env : Env M) (path : Bytes) (s : State) :
    shownModules (showWithPrefix env s .module path).out = shownModules s.out ++ [path] := by
  unfold showWithPrefix State.write shownModules
  rw [filterMap_append]
  rfl

section
variable {U : Finset M} {n : Nat} {call : M → State → Option (Bool × State)}

theorem showModule_completes (hopts : env.opts = .default) (h : Recurses env U n call) {m : M}
    {list : List (InfoKey × Bytes)} (hinfo : env.kmod.info m = some list)
    (hU : ∀ m', env.Leads m m' → m' ∈ U) (hs : Visits.left env.graph U s.tracked < n) :
    ∃ failed s₁ s', showModule env call m list s = some (failed, s') ∧ s₁.tracked = s.tracked ∧
      shownModules s₁.out = shownModules s.out ++ [env.graph.key m] ∧
      Searches env (env.graph.succ m) (env.Lacks list) s₁ failed s' := by
  obtain ⟨s₁, hs₁⟩ : ∃ s₁, s₁ = (showWithPrefix env s .module ((env.kmod.path m).getD [])).deeper :=
    ⟨_, rfl⟩
  have htracked : s₁.tracked = s.tracked := by rw [hs₁]; rfl
  obtain ⟨failed, s₂, hinfos, hsearch⟩ :=
    Completes.forEach (fun entry (hentry : entry ∈ list) => completes_processInfo hopts h entry
      fun name hname m' hfinds => hU m' (.info hinfo hentry hname hfinds)) s₁ (by rwa [htracked])
  have hs₂ : Visits.left env.graph U s₂.tracked < n := by
    obtain ⟨ms, hvisits, -⟩ := hsearch
    exact hvisits.left_le.trans_lt (by rwa [htracked])
  obtain ⟨failed₁, s₃, hsoft, hsearch₁⟩ := completes_processSoftDeps h m
    (fun pre post hdeps m' hm' hp => hU m' (.softdeps hinfo hdeps hm' hp)) s₂ hs₂
  have hs₃ : Visits.left env.graph U s₃.tracked < n := by
    obtain ⟨ms, hvisits, -⟩ := hsearch₁
    exact hvisits.left_le.trans_lt hs₂
  obtain ⟨failed₂, s₄, hweak, hsearch₂⟩ := completes_processWeakDeps h m
    (fun weak hdeps m' hm' hp => hU m' (.weakdeps hinfo hdeps hm' hp)) s₃ hs₃
  have hhigher : Quiet s₄ s₄.higher := ⟨rfl, rfl⟩
  refine ⟨failed || (failed₁ || failed₂), s₁, s₄.higher, ?_, htracked, ?_, ?_⟩
  · unfold showModule
    rw [hopts]
    simp only [Options.default, if_true, Bool.and_self, Option.bind_eq_bind, ← hs₁, hinfos,
      Option.bind_some, forEach, hsoft, hweak, Bool.or_false]
  · rw [hs₁]
    exact shownModules_showModule env _ s
  · have hall := (hsearch.trans (hsearch₁.trans hsearch₂)).trans (hhigher.searches false)
    rw [Bool.or_false] at hall
    refine hall.congr ?_ (by simp [Env.Lacks])
    ext m'
    simp only [Set.union_empty, Set.mem_union, Set.mem_iUnion, Set.mem_ofPred_eq, exists_prop]
    constructor
    · rintro (⟨entry, hentry, name, hname, hfinds⟩ | ⟨pre, post, hdeps, hmem, hp⟩
        | ⟨weak, hdeps, hmem, hp⟩)
      · exact .info hinfo hentry hname hfinds
      · exact .softdeps hinfo hdeps hmem hp
      · exact .weakdeps hinfo hdeps hmem hp
    · intro hleads
      cases hleads with
      | info hinfo' hentry hname hfinds =>
        cases hinfo.symm.trans hinfo'
        exact .inl ⟨_, hentry, _, hname, hfinds⟩
      | softdeps _ hdeps hmem hp => exact .inr (.inl ⟨_, _, hdeps, hmem, hp⟩)
      | weakdeps _ hdeps hmem hp => exact .inr (.inr ⟨_, hdeps, hmem, hp⟩)

/-- A module that is no builtin has a path. -/
def Env.HasPaths (env : Env M) : Prop :=
  ∀ m, ¬env.Builtin m → ∃ path, env.kmod.path m = some path

theorem key_graph {m : M} {path : Bytes} (hpath : env.kmod.path m = some path) :
    env.graph.key m = path := by
  show (env.kmod.path m).getD [] = path
  rw [hpath]
  rfl

/-- `depinfo` visits what can be reached, by induction on the depth. -/
theorem recurses_depinfo (hopts : env.opts = .default) (hpaths : env.HasPaths)
    (hU : ∀ m ∈ U, ∀ m', env.Leads m m' → m' ∈ U) (n : Nat) :
    Recurses env U n (depinfo env n) := by
  induction n with
  | zero => exact fun m _ _ s hs => absurd hs (Nat.not_lt_zero _)
  | succ n ih =>
    intro m hmU hm s hs
    obtain ⟨path, hpath⟩ := hpaths m hm.2
    have hkey : env.graph.key m = path := key_graph hpath
    unfold depinfo trackedModule
    rw [hpath]
    by_cases hmarked : path ∈ s.tracked
    · refine ⟨false, s, by simp only [hmarked, if_true], [], Visits.marked (hkey ▸ hmarked),
        by simp, by simp⟩
    · simp only [hmarked, if_false]
      obtain ⟨s₀, hs₀⟩ : ∃ s₀, s₀ = { s with tracked := path :: s.tracked } := ⟨_, rfl⟩
      have hmark : env.graph.key m ∉ s.tracked := hkey ▸ hmarked
      have htracked₀ : s₀.tracked = env.graph.key m :: s.tracked := by rw [hs₀, hkey]
      have hout₀ : s₀.out = s.out := by rw [hs₀]
      have hless : Visits.left env.graph U s₀.tracked < n := by
        rw [htracked₀]
        exact (Visits.left_cons hmU hmark).trans_le (Nat.le_of_lt_succ hs)
      rw [← hs₀]
      cases hinfo : env.kmod.info m with
      | none =>
        have hquiet : Quiet s₀ (s₀.write (.noInformation (env.kmod.name m))) :=
          quiet_write (o := .noInformation (env.kmod.name m)) (fun _ _ _ => nofun) s₀
        have hsucc : env.graph.succ m = ∅ := by
          ext m'
          simp only [Env.graph, Set.mem_ofPred_eq, Set.mem_empty_iff_false, iff_false]
          rintro (⟨h, -⟩ | ⟨h, -⟩ | ⟨h, -⟩) <;> cases hinfo.symm.trans h
        refine ⟨true, _, rfl, [m], ?_, ?_, ?_⟩
        · refine Visits.enter hmark ?_
          rw [hsucc, hquiet.1, htracked₀]
          exact Visits.nil _
        · rw [hquiet.2, hout₀]
          simp [hinfo]
        · simp [Env.Broken, hinfo]
      | some list =>
        obtain ⟨failed, s₁, s', hshow, htracked, hshown, ms, hvisits, hshown', hfailed⟩ :=
          showModule_completes hopts ih hinfo (hU m hmU) hless
        refine ⟨failed, s', hshow, m :: ms, ?_, ?_, ?_⟩
        · refine Visits.enter hmark ?_
          rw [htracked, htracked₀] at hvisits
          exact hvisits
        · rw [hshown', hshown, hout₀, filter_cons, hinfo]
          simp
        · rw [hfailed, ← broken_iff hinfo]
          simp

end

/-- With libkmod given by any functions, where every module that is no builtin has its own path and
finitely many modules are reached: `depinfo` with the default options and arguments that are names
or aliases ends. It shows the path of every module that is reached and whose information can be
read, once, and no other; and it fails if and only if an argument or a name in the `depends` of a
module that is reached leads to nothing, or the information about such a module cannot be read. -/
theorem processNames_closure {M : Type} (env : Env M) (args : List Bytes) (U : Finset M) (n : Nat)
    (hopts : env.opts = .default) (hpaths : env.HasPaths)
    (hdistinct : ∀ m m', ¬env.Builtin m → ¬env.Builtin m' → env.kmod.path m =
      env.kmod.path m' → m = m')
    (hU : ∀ m, env.Reached args m → m ∈ U) (hn : U.card < n) :
    ∃ failed s, processNames env n args false = some (failed, s) ∧ (shownModules s.out).Nodup ∧
      (∀ path, path ∈ shownModules s.out ↔
        ∃ m, env.Reached args m ∧ (env.kmod.info m).isSome ∧ env.kmod.path m = some path) ∧
      (failed = true ↔ (∃ name ∈ args, env.Unresolved name) ∨ ∃ m, env.Reached args m ∧
        env.Broken m) := by
  -- the modules that are reached
  obtain ⟨R, hR, hcard⟩ : ∃ R : Finset M, (∀ m, m ∈ R ↔ env.Reached args m) ∧ R.card < n := by
    classical
    refine ⟨U.filter (env.Reached args), fun m => ?_, (Finset.card_filter_le _ _).trans_lt hn⟩
    rw [Finset.mem_filter]
    exact and_iff_right_of_imp (hU m)
  have hclosed : ∀ m ∈ R, ∀ m', env.Leads m m' → m' ∈ R :=
    fun m hm m' hleads => (hR m').2 (.step ((hR m).1 hm) hleads)
  have hargs := Completes.forEach fun name (hname : name ∈ args) =>
    completes_depinfoAlias (recurses_depinfo hopts hpaths hclosed n) .required name
      fun m hfinds => (hR m).2 (.target ⟨name, hname, hfinds⟩)
  obtain ⟨failed, s, hrun, ms, hvisits, hshown, hfailed⟩ :=
    hargs (State.start false) ((Finset.card_filter_le _ _).trans_lt hcard)
  -- only modules that are no builtins are reached, so they have paths of their own
  have hproceeds {m : M} (hm : env.Reached args m) : ¬env.Builtin m := by
    cases hm with
    | target h =>
      obtain ⟨name, -, hfinds⟩ := h
      exact hfinds.2.2.2
    | step _ hleads =>
      cases hleads with
      | info _ _ _ hfinds => exact hfinds.2.2.2
      | softdeps _ _ _ hp | weakdeps _ _ _ hp => exact hp.2
  have hkey {m : M} (hm : env.Reached args m) : env.kmod.path m = some (env.graph.key m) := by
    obtain ⟨path, hpath⟩ := hpaths m (hproceeds hm)
    rw [hpath, key_graph hpath]
  have htargets :
      (⋃ name ∈ args, {m | env.Finds name m}) = {m | ∃ name ∈ args, env.Finds name m} := by
    ext m
    simp
  rw [htargets] at hvisits
  have hmem (m : M) : m ∈ ms ↔ env.Reached args m :=
    hvisits.mem_iff_reach fun m hm m' hm' heq =>
      hdistinct m m' (hproceeds hm) (hproceeds hm') (by rw [hkey hm, hkey hm', heq])
  have hshown₀ :
      shownModules s.out = (ms.filter fun m => (env.kmod.info m).isSome).map env.graph.key := hshown
  refine ⟨failed, s, hrun, ?_, fun path => ?_, ?_⟩
  · rw [hshown₀]
    exact hvisits.nodup.sublist (filter_sublist.map _)
  · rw [hshown₀]
    simp only [mem_map, mem_filter, hmem]
    constructor
    · rintro ⟨m, ⟨hm, hinfo⟩, rfl⟩
      exact ⟨m, hm, hinfo, hkey hm⟩
    · rintro ⟨m, hm, hinfo, hpath⟩
      exact ⟨m, ⟨hm, hinfo⟩, Option.some.inj ((hkey hm).symm.trans hpath)⟩
  · rw [hfailed]
    simp [hmem]

end

/-- The modules `a` and `b`, which depend on each other; `b` also depends on `c`, which there is
not. -/
def cycleEnv : Env Bool where
  kmod :=
    { name := fun m => if m then text "b" else text "a"
      path := fun m => some (if m then text "/b" else text "/a")
      lookup := fun n =>
        if n = text "a" then some [false] else if n = text "b" then some [true] else some []
      info := fun m => some [(.depends, if m then text "a,c" else text "b")]
      softdeps := fun _ => some ([], [])
      weakdeps := fun _ => none
      blacklisted := fun _ => false
      builtin := fun _ => false }
  files := ⟨fun _ => false, fun _ => [], fun _ _ => false⟩
  opts := .default
  useBlacklist := false
  kversion := text "6"
  firmwareClassPath := []
  firmwareDir := []
  kbuiltinTree := []
  kbuiltinWithAliases := []

theorem processNames_closure_cycle :
    ∃ failed s, processNames cycleEnv 3 [text "a"] false = some (failed, s) ∧
      (shownModules s.out).Nodup ∧
      (∀ path, path ∈ shownModules s.out ↔ ∃ m, cycleEnv.Reached [text "a"] m ∧
        (cycleEnv.kmod.info m).isSome ∧ cycleEnv.kmod.path m = some path) ∧
      (failed = true ↔ (∃ name ∈ [text "a"], cycleEnv.Unresolved name) ∨
        ∃ m, cycleEnv.Reached [text "a"] m ∧ cycleEnv.Broken m) := by
  refine processNames_closure cycleEnv [text "a"] Finset.univ 3 rfl (fun m _ => ⟨_, rfl⟩) ?_
    (fun m _ => Finset.mem_univ m) (by decide)
  have hpath : ∀ m m', cycleEnv.kmod.path m = cycleEnv.kmod.path m' → m = m' := by decide
  exact fun m m' _ _ => hpath m m'

example : (processNames cycleEnv 3 [text "a"] false).map (fun r => (r.1, shownModules r.2.out)) =
    some (true, [text "/a", text "/b"]) := by
  decide +kernel

end MakeInitrd.Depinfo
