import MakeInitrd.Lib.Lts
import MakeInitrd.Lib.Words

/-!
# The pool of `initrd-scanmod`

`find_modules` puts the paths of module files into a queue and starts threads that take them from
there. Every path that was taken has been handed to `process_module` or is held by one thread
(`Inv.log`). So all paths have been handed over once when the threads have been joined, provided
that there was a thread: if the first `pthread_create` fails, `find_modules` joins nothing and
returns (`findModules_exactly_once_iff`).
-/

namespace MakeInitrd.Scanmod

open CMem
open Words (text)

/-! ## The walk -/

/-- What `fts_read` says about an entry. -/
inductive FtsInfo where
  | file
  | symlink
  /-- `FTS_DNR`, `FTS_ERR` or `FTS_NS` -/
  | error
  | other
deriving DecidableEq

structure FtsEntry where
  info : FtsInfo
  accpath : Bytes
  path : Bytes
deriving DecidableEq

/-- What `fts_read` returns until it returns NULL, and whether `errno` is set then. -/
structure Walk where
  entries : List FtsEntry
  failed : Bool

def exts : List Bytes :=
  [text ".ko", text ".ko.zst", text ".ko.xz", text ".ko.gz", text ".ko.bz2"]

/-- `is_kernel_modname` -/
def isKernelModname (filename : Bytes) : Bool :=
  exts.any fun ext => ext <:+ filename

/-- The paths that are put into the queue; `none` if the program exits. -/
def queuePaths : List FtsEntry → Option (List Bytes)
  | [] => some []
  | e :: es =>
    match e.info with
    | .error => none
    | .other => queuePaths es
    | .file | .symlink =>
      if isKernelModname e.accpath then (queuePaths es).map (e.path :: ·) else queuePaths es

def Walk.paths (w : Walk) : Option (List Bytes) :=
  if w.failed then none else queuePaths w.entries

/-! ## The threads -/

/-- `n_workers`, from `--jobs`, the number of processors and the length of the queue. -/
def nWorkers (jobs nprocs : Int) (count : Nat) : Int :=
  let n := if jobs ≤ 0 then if 0 < nprocs then nprocs else 1 else jobs
  if count < n then count else n

/-- Where a thread is in `worker_func`. -/
inductive Worker where
  | absent
  /-- before `kmod_new` -/
  | starting
  /-- before `queue_pop` -/
  | ready
  /-- before `process_module` -/
  | holds (path : Bytes)
  | ended
deriving DecidableEq

/-- Where `find_modules` is after the walk. -/
inductive Main where
  /-- before the `pthread_create` of this thread -/
  | create (i : Nat)
  /-- before the `pthread_join` of this thread -/
  | join (i : Nat)
  /-- in `worker_func` -/
  | alone
  | returned
  | exit
deriving DecidableEq

structure State where
  main : Main
  /-- `n_created` -/
  created : Nat
  /-- `q.current` -/
  current : Nat
  worker : Nat → Worker
  /-- the paths `process_module` was called for -/
  handed : List Bytes

/-- A step of `find_modules`, or of a thread, for which `kmod_new` succeeds or not. -/
inductive Label where
  | main
  | worker (t : Nat) (ok : Bool)
deriving DecidableEq

def State.setWorker (s : State) (t : Nat) (x : Worker) : State :=
  { s with worker := Function.update s.worker t x }

section
variable (paths : List Bytes) (n : Int) (create : Nat → Bool)

/-- `find_modules`; `create i` says whether the `pthread_create` of the thread `i` succeeds. -/
def mainStep (s : State) : Option State :=
  match s.main with
  | .create i =>
    if i < n ∧ create i then
      some ({ s with
        main := .create (i + 1)
        created := i + 1 }.setWorker i .starting)
    else some { s with main := .join 0 }
  | .join i =>
    if i < s.created then
      if s.worker i = .ended then some { s with main := .join (i + 1) } else none
    else some { s with main := .returned }
  | .alone => if s.worker 0 = .ended then some { s with main := .returned } else none
  | .returned | .exit => none

/-- `worker_func`; `queue_pop` is one step, under its lock. -/
def workerStep (s : State) (t : Nat) (ok : Bool) : Option State :=
  match s.worker t with
  | .absent | .ended => none
  | .starting => some (if ok then s.setWorker t .ready else { s with main := .exit })
  | .ready =>
    match paths[s.current]? with
    | some path => some ({ s with current := s.current + 1 }.setWorker t (.holds path))
    | none => some (s.setWorker t .ended)
  | .holds path => some ({ s with handed := s.handed ++ [path] }.setWorker t .ready)

def step (s : State) : Label → Option State
  | .main => mainStep n create s
  | .worker t ok => if s.main = .exit then none else workerStep paths s t ok

def start : State :=
  let idle : State := ⟨.create 0, 0, 0, fun _ => .absent, []⟩
  if paths = [] then { idle with main := .returned }
  else if n ≤ 1 then
    { idle with
      main := .alone
      created := 1 }.setWorker 0 .starting
  else idle

end

/-- The runs of `find_modules`. -/
def findModules (w : Walk) (jobs nprocs : Int) (create : Nat → Bool) : Lts State Label where
  init s :=
    match w.paths with
    | some paths => s = start paths (nWorkers jobs nprocs paths.length)
    | none => s = ⟨.exit, 0, 0, fun _ => .absent, []⟩
  step s l := w.paths.bind fun paths => step paths (nWorkers jobs nprocs paths.length) create s l

/-! ## The invariant -/

/-- What a thread has taken and not handed over. -/
def Worker.held : Worker → Multiset Bytes
  | .holds path => {path}
  | _ => 0

/-- What the threads have taken and not handed over. -/
def State.held (s : State) : Multiset Bytes :=
  ∑ t ∈ Finset.range s.created, (s.worker t).held

structure Inv (paths : List Bytes) (n : Int) (create : Nat → Bool) (s : State) : Prop where
  /-- what was taken is held or handed over -/
  log : (s.handed : Multiset Bytes) + s.held = paths.take s.current
  absent (t : Nat) : s.created ≤ t → s.worker t = .absent
  ended (t : Nat) : s.worker t = .ended → paths.length ≤ s.current
  creating (i : Nat) : s.main = .create i → s.created = i ∧ ¬n ≤ 1
  joining (i : Nat) : s.main = .join i → (∀ t < i, s.worker t = .ended) ∧
    (create 0 = true → 0 < s.created) ∧ ¬n ≤ 1
  alone : s.main = .alone → s.created = 1
  returned : s.main = .returned → (∀ t < s.created, s.worker t = .ended) ∧
    (n ≤ 1 ∨ create 0 = true → paths = [] ∨ 0 < s.created)

section
variable {paths : List Bytes} {n : Int} {create : Nat → Bool} {s s' : State} {t : Nat} {x : Worker}

theorem worker_setWorker_of_ne {t' : Nat} (h : t' ≠ t) :
    (s.setWorker t x).worker t' = s.worker t' :=
  Function.update_of_ne h _ _

theorem worker_setWorker : (s.setWorker t x).worker t = x :=
  Function.update_self _ _ _

theorem held_setWorker (ht : t < s.created) :
    (s.setWorker t x).held + (s.worker t).held = s.held + x.held := by
  have hmem : t ∈ Finset.range s.created := Finset.mem_range.2 ht
  have hrest : ∑ t' ∈ (Finset.range s.created).erase t, ((s.setWorker t x).worker t').held =
      ∑ t' ∈ (Finset.range s.created).erase t, (s.worker t').held :=
    Finset.sum_congr rfl fun t' ht' => by rw [worker_setWorker_of_ne (Finset.ne_of_mem_erase ht')]
  calc (s.setWorker t x).held + (s.worker t).held
      = x.held + ∑ t' ∈ (Finset.range s.created).erase t,
        (s.worker t').held + (s.worker t).held := by
        unfold State.held
        rw [show (s.setWorker t x).created = s.created from rfl,
          ← Finset.add_sum_erase _ _ hmem, hrest, worker_setWorker]
    _ = (s.worker t).held + ∑ t' ∈ (Finset.range s.created).erase t,
      (s.worker t').held + x.held := by
        rw [add_right_comm, add_comm x.held, add_right_comm]
    _ = s.held + x.held := by
        unfold State.held
        rw [Finset.add_sum_erase _ (fun t' => (s.worker t').held) hmem]

/-- A thread that is there goes on: the paths that are taken and handed over are accounted for. -/
theorem Inv.worker (h : Inv paths n create s) (hthere : s.worker t ≠ .absent)
    (hold : s.worker t ≠ .ended) (current : Nat) (handed : List Bytes)
    (hcurrent : s.current ≤ current) (hended : x = .ended → paths.length ≤ current)
    (hlog : (s.handed : Multiset Bytes) + s.held = paths.take s.current →
      (handed : Multiset Bytes) + (s.held + x.held) = paths.take current + (s.worker t).held) :
    Inv paths n create ({ s with
      current := current
      handed := handed }.setWorker t x) := by
  have ht : t < s.created := by
    by_contra hlt
    exact hthere (h.absent t (not_lt.1 hlt))
  -- the other threads are where they were, and so is one that has ended
  have hkeep {t' : Nat} (ht' : s.worker t' = .ended ∨ s.worker t' = .absent) : t' ≠ t := by
    rintro rfl
    exact ht'.elim hold hthere
  refine ⟨?_, fun t' ht' => ?_, fun t' ht' => ?_, h.creating, fun i hi => ?_, h.alone,
    fun hret => ?_⟩
  · have hheld := held_setWorker (x := x) ht
    refine add_right_cancel (b := (s.worker t).held) ?_
    show (handed : Multiset Bytes) + (s.setWorker t x).held + (s.worker t).held =
      (paths.take current : Multiset Bytes) + (s.worker t).held
    rw [← hlog h.log, ← hheld, ← add_assoc]
  · exact (worker_setWorker_of_ne (hkeep (.inr (h.absent t' ht')))).trans (h.absent t' ht')
  · by_cases heq : t' = t
    · subst heq
      exact hended (worker_setWorker.symm.trans ht')
    · rw [worker_setWorker_of_ne heq] at ht'
      exact (h.ended t' ht').trans hcurrent
  · refine ⟨fun t' ht' => ?_, (h.joining i hi).2⟩
    have hend := (h.joining i hi).1 t' ht'
    exact (worker_setWorker_of_ne (hkeep (.inl hend))).trans hend
  · refine ⟨fun t' ht' => ?_, (h.returned hret).2⟩
    have hend := (h.returned hret).1 t' ht'
    exact (worker_setWorker_of_ne (hkeep (.inl hend))).trans hend

/-- A thread keeps the invariant. -/
theorem inv_workerStep {ok : Bool} (h : Inv paths n create s)
    (hstep : workerStep paths s t ok = some s') :
    Inv paths n create s' := by
  unfold workerStep at hstep
  cases hw : s.worker t with
  | absent | ended =>
    rw [hw] at hstep
    cases hstep
  | starting =>
    rw [hw] at hstep
    cases ok with
    | true =>
      cases hstep
      exact h.worker (hw ▸ nofun) (hw ▸ nofun) s.current s.handed le_rfl nofun
        (fun hlog => by rw [hw]; simpa [Worker.held] using hlog)
    | false =>
      cases hstep
      exact ⟨h.log, h.absent, h.ended, nofun, nofun, nofun, nofun⟩
  | ready =>
    rw [hw] at hstep
    cases hpath : paths[s.current]? with
    | some path =>
      simp only [hpath, Option.some.injEq] at hstep
      subst hstep
      refine h.worker (hw ▸ nofun) (hw ▸ nofun) (s.current + 1) s.handed (Nat.le_succ _) nofun
        fun hlog => ?_
      have htake : paths.take (s.current + 1) = paths.take s.current ++ [path] := by
        rw [List.take_add_one, hpath]
        rfl
      rw [hw, htake, ← Multiset.coe_add, ← hlog, ← add_assoc]
      simp [Worker.held]
    | none =>
      simp only [hpath, Option.some.injEq] at hstep
      subst hstep
      refine h.worker (hw ▸ nofun) (hw ▸ nofun) s.current s.handed le_rfl
        (fun _ => List.getElem?_eq_none_iff.1 hpath) fun hlog => ?_
      rw [hw]
      simpa [Worker.held] using hlog
  | holds path =>
    rw [hw] at hstep
    cases hstep
    refine h.worker (hw ▸ nofun) (hw ▸ nofun) s.current (s.handed ++ [path]) le_rfl nofun
      fun hlog => ?_
    rw [hw, ← hlog, ← Multiset.coe_add]
    simp only [Worker.held, add_zero, Multiset.coe_singleton]
    exact add_right_comm _ _ _

/-- `find_modules` keeps the invariant. -/
theorem inv_mainStep (h : Inv paths n create s) (hstep : mainStep n create s = some s') :
    Inv paths n create s' := by
  unfold mainStep at hstep
  cases hmain : s.main with
  | create i =>
    obtain ⟨hcreated, hn⟩ := h.creating i hmain
    simp only [hmain] at hstep
    split at hstep
    · next hcreate =>
      cases hstep
      have habsent : s.worker i = .absent := h.absent i hcreated.le
      have hkeep {t : Nat} (ht : t ≠ i) (s₁ : State) :
          (s₁.setWorker i .starting).worker t = s₁.worker t := worker_setWorker_of_ne ht
      refine ⟨?_, fun t ht => ?_, fun t ht => ?_, fun j hj => ?_, nofun, nofun, nofun⟩
      · refine Eq.trans (congrArg _ ?_) h.log
        show ∑ t ∈ Finset.range (i + 1), (Function.update s.worker i .starting t).held = s.held
        unfold State.held
        rw [Finset.sum_range_succ, Function.update_self, hcreated]
        refine (add_zero _).trans (Finset.sum_congr rfl fun t ht => ?_)
        rw [Function.update_of_ne (Finset.mem_range.1 ht).ne]
      · have hlt : i < t := ht
        exact (hkeep hlt.ne' _).trans (h.absent t (hcreated.le.trans hlt.le))
      · by_cases heq : t = i
        · subst heq
          cases worker_setWorker.symm.trans ht
        · exact h.ended t ((hkeep heq _).symm.trans ht)
      · cases hj
        exact ⟨rfl, hn⟩
    · next hcreate =>
      cases hstep
      refine ⟨h.log, h.absent, h.ended, nofun, fun j hj => ?_, nofun, nofun⟩
      cases hj
      refine ⟨nofun, fun hfirst => ?_, hn⟩
      -- the loop has ended with `i = n`, or the thread `i` is not the first
      show 0 < s.created
      rw [hcreated]
      by_contra hzero
      cases Nat.le_zero.1 (not_lt.1 hzero)
      exact hcreate ⟨by push_cast; omega, hfirst⟩
  | join i =>
    obtain ⟨hjoined, hfirst, hn⟩ := h.joining i hmain
    simp only [hmain] at hstep
    split at hstep
    · split at hstep
      · next hended =>
        cases hstep
        refine ⟨h.log, h.absent, h.ended, nofun, fun j hj => ?_, nofun, nofun⟩
        cases hj
        refine ⟨fun t ht => ?_, hfirst, hn⟩
        rcases Nat.lt_succ_iff_lt_or_eq.1 ht with hlt | rfl
        · exact hjoined t hlt
        · exact hended
      · cases hstep
    · next hall =>
      cases hstep
      refine ⟨h.log, h.absent, h.ended, nofun, nofun, nofun, fun _ =>
        ⟨fun t ht => hjoined t (ht.trans_le (not_lt.1 hall)), fun hcond => .inr ?_⟩⟩
      exact hfirst (hcond.resolve_left hn)
  | alone =>
    simp only [hmain] at hstep
    split at hstep
    · next hended =>
      cases hstep
      have hone := h.alone hmain
      refine ⟨h.log, h.absent, h.ended, nofun, nofun, nofun,
        fun _ => ⟨fun t ht => ?_, fun _ => .inr ?_⟩⟩
      · have hzero : t = 0 := Nat.lt_one_iff.1 (hone ▸ ht)
        exact hzero ▸ hended
      · exact hone ▸ Nat.one_pos
    · cases hstep
  | returned | exit =>
    simp only [hmain] at hstep
    cases hstep

theorem inv_start (paths : List Bytes) (n : Int) (create : Nat → Bool) :
    Inv paths n create (start paths n) := by
  unfold start
  split
  · next hempty =>
    subst hempty
    exact ⟨rfl, fun _ _ => rfl, nofun, nofun, nofun, nofun, fun _ => ⟨nofun, fun _ => .inl rfl⟩⟩
  · split
    · refine ⟨rfl, fun t ht => ?_, fun t ht => ?_, nofun, nofun, fun _ => rfl, nofun⟩
      · have hpos : 0 < t := ht
        exact worker_setWorker_of_ne hpos.ne'
      · by_cases hzero : t = 0
        · subst hzero
          cases worker_setWorker.symm.trans ht
        · rw [worker_setWorker_of_ne hzero] at ht
          cases ht
    · next hn =>
      refine ⟨rfl, fun _ _ => rfl, nofun, fun i hi => ?_, nofun, nofun, nofun⟩
      cases hi
      exact ⟨rfl, hn⟩

theorem inv_of_reach {w : Walk} {jobs nprocs : Int} (hpaths : w.paths = some paths)
    (h : (findModules w jobs nprocs create).Reach s) :
    Inv paths (nWorkers jobs nprocs paths.length) create s := by
  refine h.invariant (fun s hs => ?_) fun s l s' _ hinv _ hstep => ?_
  · simp only [findModules, hpaths] at hs
    subst hs
    exact inv_start paths _ create
  · simp only [findModules, hpaths, Option.bind_some] at hstep
    cases l with
    | main => exact inv_mainStep hinv hstep
    | worker t ok =>
      simp only [step] at hstep
      split at hstep
      · cases hstep
      · exact inv_workerStep hinv hstep

theorem Inv.perm (h : Inv paths n create s) (hret : s.main = .returned)
    (hcond : n ≤ 1 ∨ create 0 = true) : s.handed.Perm paths := by
  obtain ⟨hended, hfirst⟩ := h.returned hret
  have hheld : s.held = 0 := by
    refine Finset.sum_eq_zero fun t ht => ?_
    rw [hended t (Finset.mem_range.1 ht)]
    rfl
  have hall : paths.length ≤ s.current := by
    rcases hfirst hcond with rfl | hpos
    · exact Nat.zero_le _
    · exact h.ended 0 (hended 0 hpos)
  have hlog := h.log
  rw [hheld, add_zero, List.take_of_length_le hall] at hlog
  exact Multiset.coe_eq_coe.1 hlog

end

/-- Whenever `find_modules` returns, with any number of jobs, any interleaving and any pattern of
`pthread_create` failing, every path that the walk has found was handed to `process_module` once, if
and only if one thread is enough or the first `pthread_create` succeeds. -/
theorem findModules_exactly_once_iff (w : Walk) (paths : List Bytes) (jobs nprocs : Int)
    (create : Nat → Bool) (hpaths : w.paths = some paths) :
    (∀ s, (findModules w jobs nprocs create).Reach s → s.main = .returned → s.handed.Perm paths) ↔
      nWorkers jobs nprocs paths.length ≤ 1 ∨ create 0 = true := by
  constructor
  · intro h
    by_contra hcond
    obtain ⟨hn, hfirst⟩ := not_or.1 hcond
    -- the first thread is not created and nothing is joined
    have hne : paths ≠ [] := by
      rintro rfl
      refine hn ?_
      simp only [nWorkers, List.length_nil, Nat.cast_zero]
      split <;> omega
    have hstart :
        (findModules w jobs nprocs create).Reach ⟨.create 0, 0, 0, fun _ => .absent, []⟩ := by
      refine .init ?_
      simp only [findModules, hpaths, start, hne, hn, if_false]
    have hjoin :
        (findModules w jobs nprocs create).Reach ⟨.join 0, 0, 0, fun _ => .absent, []⟩ := by
      refine .step (l := .main) hstart trivial ?_
      simp only [findModules, hpaths, Option.bind_some, step, mainStep, hfirst, Bool.false_eq_true,
        and_false, if_false]
    have hreturn :
        (findModules w jobs nprocs create).Reach ⟨.returned, 0, 0, fun _ => .absent, []⟩ := by
      refine .step (l := .main) hjoin trivial ?_
      simp only [findModules, hpaths, Option.bind_some, step, mainStep, lt_self_iff_false, if_false]
    exact hne (h _ hreturn rfl).nil_eq.symm
  · intro hcond s hreach hret
    exact (inv_of_reach hpaths hreach).perm hret hcond

/-- Two module files, `/a.ko` and `/b.ko`. -/
def twoModules : Walk where
  entries :=
    [⟨.other, text "/", text "/"⟩, ⟨.file, text "a.ko", text "/a.ko"⟩,
      ⟨.file, text "b.ko", text "/b.ko"⟩]
  failed := false

/-- Two threads that are created and take turns. -/
theorem findModules_exactly_once_two :
    ∃ s, (findModules twoModules 2 4 fun _ => true).Reach s ∧ s.main = .returned ∧
      s.handed.Perm [text "/a.ko", text "/b.ko"] := by
  obtain ⟨s, hreach, hend⟩ := Lts.reach_of_exec (T := findModules twoModules 2 4 fun _ => true) rfl
    ([.main, .main, .main] ++ (List.replicate 4 [.worker 0 true, .worker 1 true]).flatten ++
      [.main, .main, .main])
    (fun s => s.main = .returned) (by decide +kernel)
  have hret : s.main = .returned := of_decide_eq_true hend
  exact ⟨s, hreach, hret,
    (findModules_exactly_once_iff twoModules _ 2 4 (fun _ => true) rfl).2 (.inr rfl) s hreach hret⟩

/-- Without a thread nothing is handed over. -/
theorem not_findModules_exactly_once :
    twoModules.paths = some [text "/a.ko", text "/b.ko"] ∧
    ∃ s, (findModules twoModules 2 4 fun _ => false).Reach s ∧ s.main = .returned ∧
      s.handed = [] := by
  refine ⟨rfl, ?_⟩
  obtain ⟨s, hreach, hend⟩ := Lts.reach_of_exec (T := findModules twoModules 2 4 fun _ => false) rfl
    [.main, .main] (fun s => s.main = .returned && s.handed = []) (by decide +kernel)
  simp only [Bool.and_eq_true, decide_eq_true_eq] at hend
  exact ⟨s, hreach, hend⟩

end MakeInitrd.Scanmod
