import MakeInitrd.Lib.Words

/-!
# The order of services

`sort_runlevel` for one runlevel and one of start and stop: `create_deps` resolves the names of the
active services into their numbers, and `order_services` sorts the services by Kahn's algorithm. The
arrays of the script that are indexed by the number of a service are functions here.

If every name is provided by at most one active service, every required name by some active service,
and no service names itself, then `create_deps` succeeds and the dependences are those that the
headers say (`createDeps_ok`).
-/

namespace MakeInitrd.SortServices

open CMem List
open Words (text)

section
/-! ## Service headers -/

/-- The lists `svcN_*` that a header can fill. `svcN_K_before` is always empty: there is no header
for it. -/
inductive Field where
  | provide
  | sLevel
  | sRequire
  | sShould
  | kLevel
  | kRequire
  | kShould
  | sBefore
deriving DecidableEq

/-- A service: its file and its lists -/
structure Service where
  name : Bytes
  list : Field → List Bytes

/-- `${1##*/}` -/
def basename (path : Bytes) : Bytes := (path.reverse.takeWhile (· ≠ 47)).reverse

/-- `init_service` and the first `setlist`: a service provides the name of its file. -/
def initService (path : Bytes) : Service :=
  ⟨path, fun f => if f = .provide then [basename path] else []⟩

/-- `setlist` -/
def Service.setlist (s : Service) (f : Field) (ws : List Bytes) : Service :=
  { s with list := Function.update s.list f (s.list f ++ ws) }

/-- The start of a header line, and the list that its words are for -/
def keywords : List (Bytes × Field) :=
  [ (text "# Provides:", .provide),
    (text "# Default-Start:", .sLevel),
    (text "# Required-Start:", .sRequire),
    (text "# Should-Start:", .sShould),
    (text "# Default-Stop:", .kLevel),
    (text "# Required-Stop:", .kRequire),
    (text "# Should-Stop:", .kShould),
    (text "# X-Start-Before:", .sBefore)]

/-- `### BEGIN INIT INFO` -/
def beginInfo : Bytes := text "### BEGIN INIT INFO"

/-- `### END INIT INFO` -/
def endInfo : Bytes := text "### END INIT INFO"

/-- The list that a line is for -/
def fieldOf (l : Bytes) : Option Field :=
  (keywords.find? fun k => k.1 <+: l).map (·.2)

/-- A separator of words: a blank, a tab or a newline -/
def isSpace (c : UInt8) : Bool := c = 32 ∨ c = 9 ∨ c = 10

/-- The words of a text, which the shell splits unquoted -/
def splitWords (s : Bytes) : List Bytes := (s.splitOnP isSpace).filter (· ≠ [])

/-- `${l#*:}` -/
def afterColon (l : Bytes) : Bytes := if 58 ∈ l then (l.dropWhile (· ≠ 58)).tail else l

inductive ParseError where
  | notExecutable
  | notService
  | duplicateKeyword (f : Field)
  | unfinishedHeader
deriving DecidableEq

/-- How much of the header has been read: `block` -/
inductive Block where
  | before
  | inside
  | done
deriving DecidableEq

/-- The loop of `parse_service` over the lines, as `read` delivers them -/
def parseLines : List Bytes → Block → List Field → Service → Except ParseError (Block × Service)
  | [], block, _, s => .ok (block, s)
  | l :: ls, block, kwds, s =>
    if l = beginInfo then
      match block with
      | .before => parseLines ls .inside kwds s
      | _ => .ok (block, s)
    else if l = endInfo then
      match block with
      | .inside => .ok (.done, s)
      | _ => parseLines ls block kwds s
    else
      match block, fieldOf l with
      | .inside, some f =>
        if f ∈ kwds then .error (.duplicateKeyword f)
        else parseLines ls block (kwds ++ [f]) (s.setlist f (splitWords (afterColon l)))
      | _, _ => parseLines ls block kwds s

/-- `known_levels`: 0 to 6 -/
def knownLevels : List Bytes :=
  [text "0", text "1", text "2", text "3", text "4", text "5", text "6"]

/-- What `parse_service` does with the lists when the header has been read. -/
def Service.complete (s : Service) : Service :=
  let s := if s.list .kRequire = [] then s.setlist .kRequire (s.list .sRequire) else s
  let s := if s.list .kShould = [] then s.setlist .kShould (s.list .sShould) else s
  s.setlist .kLevel (knownLevels.filter (· ∉ s.list .sLevel))

/-- The names of files that are no services: `.*|*.rpm*|*.swp|*.bak|*,v|*~|*'.#'` -/
def notService (n : Bytes) : Bool :=
  text "." <+: n ∨ text ".rpm" <:+: n ∨ text ".swp" <:+ n ∨ text ".bak" <:+ n ∨ text ",v" <:+ n ∨
    text "~" <:+ n ∨ text ".#" <:+ n

/-- `parse_service`; `none` for a service without a header, which is ignored. -/
def parseService (path : Bytes) (executable : Bool) (lines : List Bytes) :
    Except ParseError (Option Service) :=
  if !executable then .error .notExecutable
  else if notService (basename path) then .error .notService
  else
    match parseLines lines .before [] (initService path) with
    | .error e => .error e
    | .ok (.inside, _) => .error .unfinishedHeader
    | .ok (.before, _) => .ok none
    | .ok (.done, s) => .ok (some s.complete)

/-! ## One runlevel -/

/-- `lvltype`: start or stop -/
inductive LvlType where
  | S
  | K
deriving DecidableEq

/-- `svcN_${lvltype}_level` -/
def Service.level (s : Service) : LvlType → List Bytes
  | .S => s.list .sLevel
  | .K => s.list .kLevel

/-- `svcN_${lvltype}_require` -/
def Service.require (s : Service) : LvlType → List Bytes
  | .S => s.list .sRequire
  | .K => s.list .kRequire

/-- `svcN_${lvltype}_should` -/
def Service.should (s : Service) : LvlType → List Bytes
  | .S => s.list .sShould
  | .K => s.list .kShould

/-- `svcN_${lvltype}_before` -/
def Service.before (s : Service) : LvlType → List Bytes
  | .S => s.list .sBefore
  | .K => []

inductive Fatal where
  /-- `really?` -/
  | really (service : Bytes)
  /-- `is provided more than once` -/
  | providedTwice (n : Bytes) (providers : Bytes × Bytes)
  /-- `unknown dependence` -/
  | unknown (n service : Bytes)
  /-- `requires himself` -/
  | himself (service : Bytes)
  /-- `input contains a loop:` -/
  | loop (services : List Bytes)
deriving DecidableEq

/-- A line of the order: `"$level" "$lvltype" "${tier[$i]}" "$n"` -/
structure Line where
  level : Bytes
  lvltype : LvlType
  tier : Nat
  name : Bytes
deriving DecidableEq

section
variable (svcs : List Service) (level : Bytes) (ty : LvlType)

/-- `in_levels "$level" "svc${i}_${lvltype}_level"` -/
def active (i : Nat) : Bool := (svcs[i]?.elim [] (·.level ty)).contains level

/-- Service `i` provides a name. -/
def provides (i : Nat) (n : Bytes) : Bool := (svcs[i]?.elim [] (·.list .provide)).contains n

/-- `find_provide`: the first active service from a number on that provides a name -/
def findProvide (n : Bytes) (start : Nat) : Option Nat :=
  (List.range svcs.length).find? fun i => start ≤ i ∧ active svcs level ty i ∧ provides svcs i n

/-- `${name##*/}` of service `i` -/
def nameOf (i : Nat) : Bytes := svcs[i]?.elim [] fun s => basename s.name

/-- The arrays `depsN` -/
abbrev Deps := Nat → List Nat

/-- `depsI+=("svcJ")` -/
def Deps.add (deps : Deps) (i j : Nat) : Deps := Function.update deps i (deps i ++ [j])

/-- The check of one provided name of service `i` -/
def checkProvide (i : Nat) (n : Bytes) : Except Fatal Unit :=
  match findProvide svcs level ty n 0 with
  | none => .error (.really (nameOf svcs i))
  | some j =>
    match findProvide svcs level ty n (j + 1) with
    | none => .ok ()
    | some k => .error (.providedTwice n (nameOf svcs j, nameOf svcs k))

/-- One name of a list of service `i`: an unknown name is passed over or not, and the service that
provides the name becomes a dependence of service `i`, or the other way round. -/
def addName (must reverse : Bool) (i : Nat) (deps : Deps) (n : Bytes) : Except Fatal Deps :=
  match findProvide svcs level ty n 0 with
  | none => if must then .error (.unknown n (nameOf svcs i)) else .ok deps
  | some j =>
    if j = i then .error (.himself (nameOf svcs i))
    else .ok (if reverse then deps.add j i else deps.add i j)

/-- What `create_deps` does for service `i` -/
def serviceDeps (deps : Deps) (i : Nat) : Except Fatal Deps :=
  match svcs[i]? with
  | none => .ok deps
  | some s =>
    if active svcs level ty i then do
      (s.list .provide).forM (checkProvide svcs level ty i)
      let deps ← (s.require ty).foldlM (addName svcs level ty true false i) deps
      let deps ← (s.should ty).foldlM (addName svcs level ty false false i) deps
      (s.before ty).foldlM (addName svcs level ty false true i) deps
    else .ok deps

/-- `create_deps` -/
def createDeps : Except Fatal Deps :=
  (List.range svcs.length).foldlM (serviceDeps svcs level ty) fun _ => []

/-- `active` of `order_services` -/
def actives : List Nat := (List.range svcs.length).filter (active svcs level ty)

/-- `in_degree` and `successors` -/
structure Edges where
  inDegree : Nat → Int
  successors : Nat → List Nat

/-- One dependence of service `i` that has not been seen before -/
def addEdge (i : Nat) (e : Edges) (dep : Nat) : Edges :=
  let (u, v) := match ty with
    | .S => (dep, i)
    | .K => (i, dep)
  { inDegree := Function.update e.inDegree v (e.inDegree v + 1)
    successors := Function.update e.successors u (e.successors u ++ [v]) }

/-- The dependences of service `i`; `seen` is `seen_deps`. -/
def addEdges (i : Nat) : List Nat → List Nat → Edges → Edges
  | [], _, e => e
  | dep :: deps, seen, e =>
    if dep ∈ actives svcs level ty ∧ dep ∉ seen then
      addEdges i deps (dep :: seen) (addEdge ty i e dep)
    else addEdges i deps seen e

/-- The graph of the active services -/
def edges (deps : Deps) : Edges :=
  (actives svcs level ty).foldl (fun e i => addEdges svcs level ty i (deps i) [] e)
    ⟨fun _ => 0, fun _ => []⟩

end

/-- The state of the loop of `order_services` -/
structure Sorter where
  queue : List Nat
  order : List Nat
  inDegree : Nat → Int
  tier : Nat → Nat

/-- One successor `v` of the service `u` that has just been ordered -/
def relax (u : Nat) (s : Sorter) (v : Nat) : Sorter :=
  let tier := if s.tier v < s.tier u + 1 then Function.update s.tier v (s.tier u + 1) else s.tier
  let d := s.inDegree v - 1
  { s with
    tier := tier
    inDegree := Function.update s.inDegree v d
    queue := if d = 0 then s.queue ++ [v] else s.queue }

/-- The loop of `order_services`, with a number of rounds -/
def sortLoop (successors : Nat → List Nat) : Nat → Sorter → Sorter
  | 0, s => s
  | fuel + 1, s =>
    match s.queue with
    | [] => s
    | u :: queue =>
      sortLoop successors fuel
        ((successors u).foldl (relax u) { s with queue := queue, order := s.order ++ [u] })

section
variable (svcs : List Service) (level : Bytes) (ty : LvlType)

/-- The services in order, and the rest of the state, when the queue is empty: a service is put into
the queue at most once. -/
def sortServices (deps : Deps) : Sorter :=
  let e := edges svcs level ty deps
  let act := actives svcs level ty
  sortLoop e.successors (act.length + 1) ⟨act.filter (e.inDegree · = 0), [], e.inDegree, fun _ => 0⟩

/-- `order_services` -/
def orderServices (deps : Deps) : Except Fatal (List Line) :=
  let s := sortServices svcs level ty deps
  let act := actives svcs level ty
  if s.order.length < act.length then
    .error (.loop ((act.filter (s.inDegree · > 0)).map (nameOf svcs)))
  else .ok (s.order.map fun i => ⟨level, ty, s.tier i, nameOf svcs i⟩)

/-- `sort_runlevel` -/
def sortRunlevel : Except Fatal (List Line) := do
  let deps ← createDeps svcs level ty
  orderServices svcs level ty deps

end

end

/-! ## What `create_deps` finds -/

section
variable (svcs : List Service) (level : Bytes) (ty : LvlType)

/-- Service `j` is active and provides the name. -/
def Provider (j : Nat) (n : Bytes) : Prop := active svcs level ty j ∧ provides svcs j n

/-- The names are in order: this is what `create_deps` checks. -/
structure WellNamed : Prop where
  unique : ∀ i j n, Provider svcs level ty i n → Provider svcs level ty j n → i = j
  resolve : ∀ i s, svcs[i]? = some s → active svcs level ty i → ∀ n ∈ s.require ty, ∃ j,
    Provider svcs level ty j n
  notSelf : ∀ i s, svcs[i]? = some s → active svcs level ty i →
    ∀ n ∈ s.require ty ++ s.should ty ++ s.before ty, ¬Provider svcs level ty i n

/-- Service `i` names `j` as required or as one it should follow, or `j` names `i` as one to be
started after it. -/
def DependsOn (i j : Nat) : Prop :=
  (∃ s, svcs[i]? = some s ∧ active svcs level ty i ∧ ∃ n ∈ s.require ty ++ s.should ty,
    Provider svcs level ty j n) ∨
  ∃ s, svcs[j]? = some s ∧ active svcs level ty j ∧ ∃ n ∈ s.before ty, Provider svcs level ty i n

end

variable {svcs : List Service} {level : Bytes} {ty : LvlType}

variable {i : Nat}

theorem lt_of_active (h : active svcs level ty i) : i < svcs.length := by
  by_contra hlt
  simp [active, getElem?_eq_none (Nat.le_of_not_lt hlt)] at h

variable {j : Nat}

theorem DependsOn.active (h : DependsOn svcs level ty i j) :
    active svcs level ty i ∧ active svcs level ty j := by
  rcases h with ⟨_, _, hi, _, _, hj⟩ | ⟨_, _, hj, _, _, hi⟩
  · exact ⟨hi, hj.1⟩
  · exact ⟨hi.1, hj⟩

/-! ## Resolving names -/

variable {n : Bytes}

theorem findProvide_some {start : Nat} (h : findProvide svcs level ty n start = some j) :
    start ≤ j ∧ Provider svcs level ty j n := by
  simpa [Provider] using find?_some h

theorem findProvide_none (h : findProvide svcs level ty n 0 = none) (j : Nat) :
    ¬Provider svcs level ty j n := by
  intro hj
  have := find?_eq_none.1 h j (mem_range.2 (lt_of_active hj.1))
  simp [hj.1, hj.2] at this

theorem findProvide_eq (h : WellNamed svcs level ty) (hj : Provider svcs level ty j n) :
    findProvide svcs level ty n 0 = some j := by
  cases hfind : findProvide svcs level ty n 0 with
  | none => exact absurd hj (findProvide_none hfind j)
  | some k => rw [h.unique j k n hj (findProvide_some hfind).2]

theorem checkProvide_ok (h : WellNamed svcs level ty)
    (hi : Provider svcs level ty i n) : checkProvide svcs level ty i n = .ok () := by
  rw [checkProvide, findProvide_eq h hi]
  cases hfind : findProvide svcs level ty n (i + 1) with
  | none => simp [hfind]
  | some k =>
    obtain ⟨hle, hk⟩ := findProvide_some hfind
    have := h.unique i k n hi hk
    omega

/-! ## Collecting dependences -/

theorem mem_add {deps : Deps} {a b : Nat} : b ∈ deps.add i j a ↔ b ∈ deps a ∨ (a = i ∧ b = j) := by
  by_cases h : a = i
  · subst h
    simp [Deps.add]
  · simp [Deps.add, h]

theorem addNames_ok (h : WellNamed svcs level ty) (must reverse : Bool) {ns : List Bytes}
    (hmust : must → ∀ n ∈ ns, ∃ j, Provider svcs level ty j n)
    (hself : ∀ n ∈ ns, ¬Provider svcs level ty i n) (deps : Deps) :
    ∃ deps', ns.foldlM (addName svcs level ty must reverse i) deps = .ok deps' ∧
      ∀ a b, b ∈ deps' a ↔ b ∈ deps a ∨ ∃ n ∈ ns,
        if reverse then b = i ∧ Provider svcs level ty a n
          else a = i ∧ Provider svcs level ty b n := by
  induction ns generalizing deps with
  | nil => exact ⟨deps, rfl, by simp⟩
  | cons n ns ih =>
    have ih := ih (fun hm n' hn' => hmust hm n' (mem_cons_of_mem _ hn'))
      (fun n' hn' => hself n' (mem_cons_of_mem _ hn'))
    rw [foldlM_cons]
    cases hfind : findProvide svcs level ty n 0 with
    | none =>
      have hno := findProvide_none hfind
      have hfalse : must = false := by
        rw [Bool.eq_false_iff]
        intro hm
        obtain ⟨j, hj⟩ := hmust hm n (by simp)
        exact hno j hj
      obtain ⟨deps', hok, hmem⟩ := ih deps
      refine ⟨deps', ?_, fun a b => ?_⟩
      · rw [addName, hfind, hfalse] at *
        exact hok
      · simp only [hmem, exists_mem_cons_iff, hno, and_false, ite_self, false_or]
    | some j =>
      have hj := (findProvide_some hfind).2
      have hprov : ∀ k, Provider svcs level ty k n ↔ k = j :=
        fun k => ⟨fun hk => h.unique k j n hk hj, fun hk => hk ▸ hj⟩
      have hne : j ≠ i := fun heq => hself n (by simp) (heq ▸ hj)
      obtain ⟨deps', hok, hmem⟩ := ih (if reverse then deps.add j i else deps.add i j)
      refine ⟨deps', ?_, fun a b => ?_⟩
      · rw [addName, hfind]
        simp only [hne, if_false]
        exact hok
      · rw [hmem, exists_mem_cons_iff, ← or_assoc]
        cases reverse with
        | true => simp only [if_true, mem_add, hprov, and_comm]
        | false => simp only [Bool.false_eq_true, if_false, mem_add, hprov]

/-- The dependences that service `i` brings in -/
def Brings (svcs : List Service) (level : Bytes) (ty : LvlType) (i a b : Nat) : Prop :=
  ∃ s, svcs[i]? = some s ∧ active svcs level ty i ∧
    ((a = i ∧ ∃ n ∈ s.require ty ++ s.should ty, Provider svcs level ty b n) ∨
      (b = i ∧ ∃ n ∈ s.before ty, Provider svcs level ty a n))

variable {α : Type*} {f : α → Except Fatal Unit} {l : List α}

theorem forM_ok (h : ∀ a ∈ l, f a = .ok ()) : l.forM f = .ok () := by
  induction l with
  | nil => rfl
  | cons a l ih =>
    rw [forM_eq_forM, forM_cons, h a (by simp)]
    exact ih fun b hb => h b (mem_cons_of_mem _ hb)

theorem serviceDeps_ok (h : WellNamed svcs level ty) (deps : Deps) (i : Nat) :
    ∃ deps', serviceDeps svcs level ty deps i = .ok deps' ∧
      ∀ a b, b ∈ deps' a ↔ b ∈ deps a ∨ Brings svcs level ty i a b := by
  rw [serviceDeps]
  cases hs : svcs[i]? with
  | none => exact ⟨deps, rfl, by simp [Brings, hs]⟩
  | some s =>
    by_cases hact : active svcs level ty i
    · have hself := h.notSelf i s hs hact
      simp only [mem_append] at hself
      obtain ⟨d₁, h₁, hm₁⟩ := addNames_ok h true false
        (fun _ => h.resolve i s hs hact) (fun n hn => hself n (.inl (.inl hn))) deps
      obtain ⟨d₂, h₂, hm₂⟩ := addNames_ok h false false nofun
        (fun n hn => hself n (.inl (.inr hn))) d₁
      obtain ⟨d₃, h₃, hm₃⟩ := addNames_ok h false true nofun (fun n hn => hself n (.inr hn)) d₂
      refine ⟨d₃, ?_, fun a b => ?_⟩
      · have hprov : (s.list .provide).forM (checkProvide svcs level ty i) = .ok () :=
          forM_ok fun n hn => checkProvide_ok h ⟨hact, by simpa [provides, hs] using hn⟩
        simp only [hact, if_true, hprov, h₁, h₂, Except.bind, bind, h₃]
      · simp only [hm₃, hm₂, hm₁, Brings, hs, Option.some.injEq, exists_eq_left', hact, true_and]
        simp only [Bool.false_eq_true, if_false, if_true, mem_append]
        grind
    · exact ⟨deps, by simp [hact], by simp [Brings, hs, hact]⟩

theorem servicesDeps_ok (h : WellNamed svcs level ty) (is : List Nat) (deps : Deps) :
    ∃ deps', is.foldlM (serviceDeps svcs level ty) deps = .ok deps' ∧
      ∀ a b, b ∈ deps' a ↔ b ∈ deps a ∨ ∃ i ∈ is, Brings svcs level ty i a b := by
  induction is generalizing deps with
  | nil => exact ⟨deps, rfl, by simp⟩
  | cons i is ih =>
    obtain ⟨d₁, h₁, hm₁⟩ := serviceDeps_ok h deps i
    obtain ⟨d₂, h₂, hm₂⟩ := ih d₁
    refine ⟨d₂, ?_, fun a b => ?_⟩
    · rw [foldlM_cons, h₁]
      exact h₂
    · rw [hm₂, hm₁, exists_mem_cons_iff, or_assoc]

theorem exists_brings_iff {a b : Nat} :
    (∃ i ∈ List.range svcs.length, Brings svcs level ty i a b) ↔ DependsOn svcs level ty a b := by
  constructor
  · rintro ⟨i, -, s, hs, hact, ⟨rfl, hn⟩ | ⟨rfl, hn⟩⟩
    · exact .inl ⟨s, hs, hact, hn⟩
    · exact .inr ⟨s, hs, hact, hn⟩
  · rintro (⟨s, hs, hact, hn⟩ | ⟨s, hs, hact, hn⟩)
    · exact ⟨a, mem_range.2 (lt_of_active hact), s, hs, hact, .inl ⟨rfl, hn⟩⟩
    · exact ⟨b, mem_range.2 (lt_of_active hact), s, hs, hact, .inr ⟨rfl, hn⟩⟩

/-- If the names are in order, `create_deps` succeeds with the dependences that the headers say. -/
theorem createDeps_ok (h : WellNamed svcs level ty) : ∃ deps, createDeps svcs level ty = .ok deps ∧
      ∀ i j, j ∈ deps i ↔ DependsOn svcs level ty i j := by
  obtain ⟨deps, hok, hmem⟩ := servicesDeps_ok h (range svcs.length) fun _ => []
  exact ⟨deps, hok, fun i j => by simp only [hmem, exists_brings_iff, not_mem_nil, false_or]⟩

/-! ## What `create_deps` checks -/

theorem findProvide_first {k : Nat} (h : findProvide svcs level ty n 0 = some j)
    (hk : Provider svcs level ty k n) : j ≤ k := by
  obtain ⟨-, -, hbefore⟩ := find?_range_eq_some.1 h
  by_contra hlt
  simpa [hk.1, hk.2] using hbefore k (Nat.lt_of_not_le hlt)

theorem checkProvide_unique (h : checkProvide svcs level ty i n = .ok ()) :
    ∀ j k, Provider svcs level ty j n → Provider svcs level ty k n → j = k := by
  rw [checkProvide] at h
  cases hfind : findProvide svcs level ty n 0 with
  | none => simp [hfind] at h
  | some m =>
    rw [hfind] at h
    have hnone : findProvide svcs level ty n (m + 1) = none := by
      cases hnext : findProvide svcs level ty n (m + 1) with
      | none => rfl
      | some k => simp [hnext] at h
    have hle : ∀ j, Provider svcs level ty j n → j = m := by
      intro j hj
      have := findProvide_first hfind hj
      by_contra hne
      have hno := find?_eq_none.1 hnone j (mem_range.2 (lt_of_active hj.1))
      simp only [hj.1, hj.2, and_true, decide_eq_true_eq] at hno
      omega
    exact fun j k hj hk => (hle j hj).trans (hle k hk).symm

theorem forM_ok_iff : l.forM f = .ok () ↔ ∀ a ∈ l, f a = .ok () := by
  refine ⟨fun h => ?_, forM_ok⟩
  induction l with
  | nil => nofun
  | cons a l ih =>
    rw [forM_eq_forM, forM_cons] at h
    cases ha : f a with
    | error e => simp [ha, bind, Except.bind] at h
    | ok u =>
      rw [ha] at h
      exact forall_mem_cons.2 ⟨ha, ih h⟩

theorem exists_step_of_foldlM {β : Type*} {f : β → α → Except Fatal β} {b b' : β}
    (h : l.foldlM f b = .ok b') : ∀ a ∈ l, ∃ b₁ b₂, f b₁ a = .ok b₂ := by
  induction l generalizing b with
  | nil => nofun
  | cons a l ih =>
    rw [foldlM_cons] at h
    cases ha : f b a with
    | error e => simp [ha, bind, Except.bind] at h
    | ok b₁ =>
      rw [ha] at h
      exact forall_mem_cons.2 ⟨⟨b, b₁, ha⟩, ih h⟩

theorem serviceDeps_inv {deps deps' : Deps} {s : Service} (hs : svcs[i]? = some s)
    (hact : active svcs level ty i) (h : serviceDeps svcs level ty deps i = .ok deps') :
    (∀ n ∈ s.list .provide, checkProvide svcs level ty i n = .ok ()) ∧
      (∀ n ∈ s.require ty, ∃ d d', addName svcs level ty true false i d n = .ok d') ∧
      (∀ n ∈ s.should ty, ∃ d d', addName svcs level ty false false i d n = .ok d') ∧
      ∀ n ∈ s.before ty, ∃ d d', addName svcs level ty false true i d n = .ok d' := by
  simp only [serviceDeps, hs, hact, if_true, bind, Except.bind] at h
  cases h₀ : (s.list .provide).forM (checkProvide svcs level ty i) with
  | error e => simp [h₀] at h
  | ok u =>
    cases h₁ : (s.require ty).foldlM (addName svcs level ty true false i) deps with
    | error e => simp [h₀, h₁] at h
    | ok d₁ =>
      cases h₂ : (s.should ty).foldlM (addName svcs level ty false false i) d₁ with
      | error e => simp [h₀, h₁, h₂] at h
      | ok d₂ =>
        simp only [h₀, h₁, h₂] at h
        exact ⟨forM_ok_iff.1 h₀, exists_step_of_foldlM h₁, exists_step_of_foldlM h₂,
          exists_step_of_foldlM h⟩

theorem addName_inv {must reverse : Bool} {d d' : Deps}
    (h : addName svcs level ty must reverse i d n = .ok d') :
    findProvide svcs level ty n 0 ≠ some i ∧ (must → findProvide svcs level ty n 0 ≠ none) := by
  rw [addName] at h
  cases hfind : findProvide svcs level ty n 0 with
  | none =>
    refine ⟨nofun, fun hm => ?_⟩
    simp [hfind, hm] at h
  | some j =>
    refine ⟨?_, fun _ => nofun⟩
    rintro ⟨⟩
    simp [hfind] at h

/-- `create_deps` succeeds exactly if all names can be resolved. -/
theorem wellNamed_iff : WellNamed svcs level ty ↔ (createDeps svcs level ty).isOk := by
  refine ⟨fun h => ?_, fun h => ?_⟩
  · obtain ⟨deps, hok, -⟩ := createDeps_ok h
    rw [hok]
    rfl
  · obtain ⟨deps, hok⟩ : ∃ deps, createDeps svcs level ty = .ok deps := by
      cases hc : createDeps svcs level ty with
      | error e => simp [hc, Except.isOk, Except.toBool] at h
      | ok deps => exact ⟨deps, rfl⟩
    have hinv : ∀ i s, svcs[i]? = some s → active svcs level ty i → _ := fun i s hs hact =>
      let ⟨_, _, h⟩ := exists_step_of_foldlM hok i (mem_range.2 (lt_of_active hact))
      serviceDeps_inv hs hact h
    have hunique : ∀ i j n, Provider svcs level ty i n → Provider svcs level ty j n → i = j := by
      intro i j n hi hj
      obtain ⟨s, hs⟩ : ∃ s, svcs[i]? = some s := ⟨_, getElem?_eq_getElem (lt_of_active hi.1)⟩
      have hn : n ∈ s.list .provide := by simpa [provides, hs] using hi.2
      exact checkProvide_unique ((hinv i s hs hi.1).1 n hn) i j hi hj
    refine ⟨hunique, fun i s hs hact n hn => ?_, fun i s hs hact n hn hself => ?_⟩
    · obtain ⟨d, d', had⟩ := (hinv i s hs hact).2.1 n hn
      obtain ⟨j, hj⟩ := Option.ne_none_iff_exists'.1 ((addName_inv had).2 rfl)
      exact ⟨j, (findProvide_some hj).2⟩
    · have hfind : findProvide svcs level ty n 0 = some i := by
        cases hf : findProvide svcs level ty n 0 with
        | none => exact absurd hself (findProvide_none hf i)
        | some j => rw [hunique i j n hself (findProvide_some hf).2]
      obtain ⟨-, h₁, h₂, h₃⟩ := hinv i s hs hact
      rcases mem_append.1 hn with hn | hn
      · rcases mem_append.1 hn with hn | hn
        · obtain ⟨d, d', had⟩ := h₁ n hn
          exact (addName_inv had).1 hfind
        · obtain ⟨d, d', had⟩ := h₂ n hn
          exact (addName_inv had).1 hfind
      · obtain ⟨d, d', had⟩ := h₃ n hn
        exact (addName_inv had).1 hfind

end MakeInitrd.SortServices
