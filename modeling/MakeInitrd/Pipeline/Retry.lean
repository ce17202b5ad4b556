import MakeInitrd.Pipeline.Order

/-!
# How often a step of the pipeline may fail

`pipe-retry=NUMBER` is the number of failures a step is allowed; with one more the queue is paused.
The count of a step is kept in a file of `/.initrd/pipeline/step-failed` between the runs of the
handler, and the name of the file is the `callnum` of the step. That is its number among the steps
of the same name, so steps of different names share a file: a failure is measured against the
failures of all steps with its `callnum` (`SharedLimit`), and not against its own (`OwnLimit`).

The queue of `Handler` is extended by the files, by the directory that pauses the queue and by the
failures so far, which no step reads. A failure is one of the script of a step; that a directory
could not be made is not counted. A session of a paused queue does not start, and `ueventctl` can
make the queue active again; nothing but the handler pauses it.
-/

namespace MakeInitrd.Pipeline

open CMem Words List

/-- A failure of a step, and whether the queue is paused after it. -/
structure Failure where
  pipenum : Nat
  paused : Bool
  deriving DecidableEq, Repr

/-- `pipe_failed`, `retry` being `PIPE_RETRY`: the files afterwards, and whether it returns 0. -/
def pipeFailed (retry : Option Int) (files : Nat → Option Nat) (callnum : Nat) :
    (Nat → Option Nat) × Bool :=
  match retry with
  | none => (files, true)
  | some r =>
    let failed := (files callnum).getD 0 + 1
    (Function.update files callnum (some failed), failed ≤ r)

structure Retrying where
  pipe : State
  /-- The files of `/.initrd/pipeline/step-failed` by their names -/
  stepFailed : Nat → Option Nat
  /-- `$uevent_confdb/queue/pause/pipeline` exists. -/
  paused : Bool
  failures : List Failure

/-- The number and the `callnum` of a step whose script has failed. -/
def Entry.failed : Entry → Option (Nat × Nat)
  | .started k _ n rc => if rc = 0 ∨ rc = pipeRetcodeStop then none else some (k, n)
  | .ready _ => none

/-- The state once the handler of `e` is over. -/
def Retrying.handled (retry : Option Int) (s : Retrying) (e : Event) (rest : List Event)
    (out : Bool × Outcome) :
    Retrying :=
  let pipe := s.pipe.handled e rest out
  match out.2.entry.bind Entry.failed with
  | none => { s with pipe := pipe }
  | some (k, callnum) =>
    let result := pipeFailed retry s.stepFailed callnum
    let paused := s.paused || !result.2
    { pipe := pipe
      stepFailed := result.1
      paused := paused
      failures := s.failures ++ [⟨k, paused⟩] }

inductive RetryLabel where
  | pipe (l : Label)
  /-- `ueventctl` makes the queue active. -/
  | active

/-- The queue of the pipeline with the limit of failures. -/
def retrySystem (c : Config) (retry : Option Int) : Lts Retrying RetryLabel where
  init s := s = ⟨⟨[], [], [], false, []⟩, fun _ => none, false, []⟩
  step s
    | .active => some { s with paused := false }
    | .pipe .post => ((system c).step s.pipe .post).map fun p => { s with pipe := p }
    | .pipe .session => if s.paused then none else ((system c).step s.pipe .session).map fun p =>
      { s with pipe := p }
    | .pipe (.handle a) =>
      match s.pipe.todo with
      | [] => none
      | e :: rest => some (s.handled retry e rest (handler c s.pipe.mounted a e))

/-! ## The limits -/

section
variable (c : Config) (r : Int)

/-- The queue is paused if and only if the step itself has failed more than `r` times. -/
def OwnLimit (pre : List Failure) (f : Failure) : Prop :=
  f.paused = true ↔ r < pre.countP (·.pipenum = f.pipenum) + 1

/-- The queue is paused if and only if the steps with the `callnum` of the step have failed more
than `r` times. -/
def SharedLimit (pre : List Failure) (f : Failure) : Prop :=
  f.paused = true ↔ r < pre.countP (fun g => pipeCallnum c.pipeline g.pipenum =
    pipeCallnum c.pipeline f.pipenum) + 1

/-- The pipeline has no end before step `k`. -/
def Named (k : Nat) : Prop := ∀ j < k, pipeName c.pipeline j ≠ []

/-- The script of step `k` can be started. -/
structure CanRun (k : Nat) : Prop where
  named : Named c (k + 1)
  executable : c.executable (pipeName c.pipeline k) = true

/-- All scripts the pipeline can start are the same. -/
def OneScript : Prop := ∀ j k, CanRun c j → CanRun c k → pipeName c.pipeline j =
    pipeName c.pipeline k

end

variable {c : Config} {r : Int} {retry : Option Int} {s s' : Retrying}
    {prevnum : Option Nat} {j k n : Nat}
  {a : Answers} {e : Event} {rest : List Event} {out : Bool × Outcome}

theorem Named.succ (h : Named c k) (hk : pipeName c.pipeline k ≠ []) : Named c (k + 1) := by
  intro j hj
  rcases Nat.lt_succ_iff_lt_or_eq.1 hj with hj | rfl
  · exact h j hj
  · exact hk

theorem CanRun.ne_nil (h : CanRun c k) : pipeName c.pipeline k ≠ [] :=
  h.named k (Nat.lt_succ_self k)

theorem getElem?_of_pipeName_ne_nil (h : pipeName c.pipeline k ≠ []) :
    (elements c.pipeline)[k]? = some (pipeName c.pipeline k) := by
  rcases pipeName_cases c.pipeline k with hnil | ⟨name, hname, -, hpipe⟩
  · exact absurd hnil h
  · rw [hname, hpipe]

theorem pipeCallnum_of_pipeName_ne_nil (h : pipeName c.pipeline k ≠ []) :
    pipeCallnum c.pipeline k =
      some (((elements c.pipeline).take k).count (pipeName c.pipeline k)) := by
  rw [pipeCallnum, getElem?_of_pipeName_ne_nil h, Option.map_some]

/-- A later step of the same name has a greater `callnum`. -/
theorem count_take_lt {names : List Bytes} {name : Bytes} (hj : names[j]? = some name)
    (hjk : j < k) : (names.take j).count name < (names.take k).count name := by
  have hsub : (names.take (j + 1)).Sublist (names.take k) := take_sublist_take_left hjk
  have hcount : (names.take (j + 1)).count name = (names.take j).count name + 1 := by
    rw [take_add_one, hj, Option.toList_some, count_append, count_singleton_self]
  have hle := hsub.count_le name
  omega

theorem eq_of_pipeCallnum_eq (hj : pipeName c.pipeline j ≠ []) (hk : pipeName c.pipeline k ≠ [])
    (hname : pipeName c.pipeline j = pipeName c.pipeline k)
    (hnum : pipeCallnum c.pipeline j = pipeCallnum c.pipeline k) : j = k := by
  have hj' := getElem?_of_pipeName_ne_nil hj
  have hk' := getElem?_of_pipeName_ne_nil hk
  rw [pipeCallnum_of_pipeName_ne_nil hj, pipeCallnum_of_pipeName_ne_nil hk, hname,
    Option.some_inj] at hnum
  rcases Nat.lt_trichotomy j k with hlt | heq | hlt
  · have := count_take_lt (hname ▸ hj') hlt
    omega
  · exact heq
  · have := count_take_lt hk' hlt
    omega

/-! ## What one event does -/

theorem failed_ready : (Entry.ready k).failed = none := rfl

theorem handlerStep_post (h : (handlerStep c prevnum k a).post = some e) :
    pipeName c.pipeline k ≠ [] ∧ ∃ prevnum', e = .step prevnum' (k + 1) := by
  rcases pipeName_cases c.pipeline k with hnil | ⟨name, hname, hne, hpipe⟩
  · rw [handlerStep_of_pipeName_nil hnil] at h
    cases h
  · refine ⟨hpipe ▸ hne, ?_⟩
    rw [handlerStep_of_name hname hne] at h
    dsimp only at h
    split_ifs at h <;> cases h <;> exact ⟨_, rfl⟩

/-- Only a script that can be started fails, and it is counted under its `callnum`. -/
theorem handlerStep_failed (h : (handlerStep c prevnum k a).entry.bind Entry.failed = some (j, n)) :
    j = k ∧ pipeCallnum c.pipeline k = some n ∧ pipeName c.pipeline k ≠ [] ∧
      c.executable (pipeName c.pipeline k) = true := by
  rcases pipeName_cases c.pipeline k with hnil | ⟨name, hname, hne, hpipe⟩
  · rw [handlerStep_of_pipeName_nil hnil] at h
    cases h
  · have hnum : pipeCallnum c.pipeline k = some (((elements c.pipeline).take k).count name) := by
      rw [pipeCallnum, hname, Option.map_some]
    rw [hpipe]
    rw [handlerStep_of_name hname hne] at h
    by_cases hexe : c.executable name = true
    · have hentry :
          ∃ dir rc, Entry.failed (.started k dir (((elements c.pipeline).take k).count name) rc) =
          some (j, n) := by
        split_ifs at h <;>
          simp only [Option.bind_some, Option.bind_none, failed_ready, reduceCtorEq] at h <;>
          exact ⟨_, _, h⟩
      obtain ⟨dir, rc, hentry⟩ := hentry
      rw [Entry.failed] at hentry
      split_ifs at hentry
      cases hentry
      exact ⟨rfl, hnum, hne, hexe⟩
    · simp [hexe] at h

theorem handlerInit_post {mounted : Bool} (h : (handlerInit c mounted a).2.post = some e) :
    e = .step none 0 := by
  rcases handlerInit_spec c mounted a with ⟨hpost, -, -⟩ | ⟨-, hout⟩
  · rw [hpost] at h
    cases h
  · rw [hout] at h
    exact (Option.some.inj h).symm

theorem handlerInit_entry {mounted : Bool} : (handlerInit c mounted a).2.entry = none := by
  rcases handlerInit_spec c mounted a with ⟨-, hentry, -⟩ | ⟨-, hout⟩
  · exact hentry
  · rw [hout]

theorem Retrying.handled_of_not_failed (h : out.2.entry.bind Entry.failed = none) :
    s.handled retry e rest out = { s with pipe := s.pipe.handled e rest out } := by
  rw [Retrying.handled, h]

theorem Retrying.handled_of_failed (h : out.2.entry.bind Entry.failed = some (k, n))
    (hactive : s.paused = false) :
    let failed := (s.stepFailed n).getD 0 + 1
    s.handled (some r) e rest out =
      { pipe := s.pipe.handled e rest out
        stepFailed := Function.update s.stepFailed n (some failed)
        paused := decide (r < failed)
        failures := s.failures ++ [⟨k, decide (r < failed)⟩] } := by
  intro failed
  have hpaused : (s.paused || !decide (failed ≤ r)) = decide (r < failed) := by
    rw [hactive, Bool.false_or, ← decide_not]
    exact decide_eq_decide.2 Int.not_le
  rw [Retrying.handled, h]
  simp only [pipeFailed, hpaused, failed]

/-! ## The invariant -/

structure RetryInv (c : Config) (r : Int) (s : Retrying) : Prop where
  pipe : Inv c s.pipe
  /-- The handler looks at a step of a queue that is not paused. -/
  active : steps s.pipe.todo ≠ [] → s.paused = false
  named : ∀ prevnum k, Event.step prevnum k ∈ s.pipe.events ++ s.pipe.queue → Named c k
  ran : ∀ f ∈ s.failures, CanRun c f.pipenum
  counted : ∀ n, (s.stepFailed n).getD 0 =
    s.failures.countP (pipeCallnum c.pipeline ·.pipenum = some n)
  shared : Log.Justified (SharedLimit c r) s.failures

theorem RetryInv.init : RetryInv c r ⟨⟨[], [], [], false, []⟩, fun _ => none, false, []⟩ where
  pipe := Inv.init
  active h := absurd rfl h
  named _ _ h := nomatch h
  ran _ h := nomatch h
  counted _ := rfl
  shared := Log.justified_nil

section
variable (h : RetryInv c r s)
include h

theorem RetryInv.named_handled
    (hpost : ∀ prevnum k, out.2.post = some (.step prevnum k) → Named c k) :
    ∀ prevnum k, Event.step prevnum k ∈ (s.pipe.handled e rest out).events ++
      (s.pipe.handled e rest out).queue →
      Named c k := by
  intro prevnum k hmem
  obtain ⟨mounted, out⟩ := out
  have hevents : Event.step prevnum k ∈ (if out.ok then s.pipe.events.erase e else s.pipe.events) →
      Event.step prevnum k ∈ s.pipe.events := by
    split_ifs
    · exact mem_of_mem_erase
    · exact id
  simp only [State.handled, mem_append, Option.mem_toList] at hmem
  rcases hmem with hmem | hmem | hmem
  · exact h.named prevnum k (mem_append_left _ (hevents hmem))
  · exact h.named prevnum k (mem_append_right _ hmem)
  · exact hpost prevnum k hmem

theorem RetryInv.handled_quiet (hpipe : Inv c (s.pipe.handled e rest out))
    (htodo : s.pipe.todo = e :: rest)
    (hpost : ∀ prevnum k, out.2.post = some (.step prevnum k) → Named c k)
    (hquiet : out.2.entry.bind Entry.failed = none) :
    RetryInv c r (s.handled (some r) e rest out) := by
  rw [Retrying.handled_of_not_failed hquiet]
  refine ⟨hpipe, fun hsteps => h.active ?_, h.named_handled hpost, h.ran, h.counted, h.shared⟩
  rw [htodo]
  cases e with
  | init => exact hsteps
  | step _ _ => exact cons_ne_nil _ _

theorem RetryInv.handled_failed (hpipe : Inv c (s.pipe.handled (.step prevnum k) rest out))
    (htodo : s.pipe.todo = .step prevnum k :: rest)
    (hpost : ∀ prevnum k, out.2.post = some (.step prevnum k) → Named c k) (hk : CanRun c k)
    (hnum : pipeCallnum c.pipeline k = some n)
    (hfailed : out.2.entry.bind Entry.failed = some (k, n)) :
    RetryInv c r (s.handled (some r) (.step prevnum k) rest out) := by
  have hactive : s.paused = false := h.active (by rw [htodo]; exact cons_ne_nil _ _)
  rw [Retrying.handled_of_failed hfailed hactive, h.counted n]
  refine ⟨hpipe, fun hsteps => ?_, h.named_handled hpost, ?_, fun m => ?_, ?_⟩
  · exact absurd (h.pipe.current htodo).2.2.1 hsteps
  · intro f hf
    rcases mem_append.1 hf with hf | hf
    · exact h.ran f hf
    · obtain rfl := mem_singleton.1 hf
      exact hk
  · simp only [countP_append, countP_singleton, hnum, Option.some_inj, decide_eq_true_eq]
    by_cases hm : n = m
    · subst hm
      rw [Function.update_self, if_pos rfl, Option.getD_some]
    · rw [Function.update_of_ne (Ne.symm hm), if_neg hm, h.counted m, Nat.add_zero]
  · refine Log.justified_concat.2 ⟨h.shared, ?_⟩
    simp only [SharedLimit, hnum, decide_eq_true_eq, Int.natCast_add, Int.natCast_one]

theorem RetryInv.handled_init (htodo : s.pipe.todo = .init :: rest) :
    RetryInv c r (s.handled (some r) .init rest (handlerInit c s.pipe.mounted a)) := by
  refine h.handled_quiet (h.pipe.handled_init htodo) htodo (fun prevnum k hpost => ?_) ?_
  · cases handlerInit_post hpost
    exact fun j hj => absurd hj (Nat.not_lt_zero j)
  · rw [handlerInit_entry, Option.bind_none]

theorem RetryInv.handled_step (htodo : s.pipe.todo = .step prevnum k :: rest) :
    RetryInv c r
      (s.handled (some r) (.step prevnum k) rest (s.pipe.mounted, handlerStep c prevnum k a)) := by
  have hpipe := h.pipe.handled_step (a := a) htodo
  have hcurrent : Event.step prevnum k ∈ s.pipe.events := by
    have hmem : Event.step prevnum k ∈ steps s.pipe.events := by
      rw [(h.pipe.current htodo).1]
      exact mem_singleton_self _
    exact mem_of_mem_filter hmem
  have hnamed : Named c k := h.named prevnum k (mem_append_left _ hcurrent)
  have hpost :
      ∀ prevnum' k', (handlerStep c prevnum k a).post = some (.step prevnum' k') → Named c k' := by
    intro prevnum' k' hpost
    obtain ⟨hk, _, heq⟩ := handlerStep_post hpost
    cases heq
    exact hnamed.succ hk
  cases hfailed : (handlerStep c prevnum k a).entry.bind Entry.failed with
  | none => exact h.handled_quiet hpipe htodo hpost hfailed
  | some f =>
    obtain ⟨j, n⟩ := f
    obtain ⟨rfl, hnum, hk, hexe⟩ := handlerStep_failed hfailed
    exact h.handled_failed hpipe htodo hpost ⟨hnamed.succ hk, hexe⟩ hnum hfailed

end

/-- The invariant of all runs with a limit -/
theorem retryInv_of_reach (hr : (retrySystem c (some r)).Reach s) : RetryInv c r s := by
  refine hr.invariant (fun s hs => hs ▸ RetryInv.init) fun s l s' _ h _ hstep => ?_
  cases l with
  | active =>
    cases hstep
    exact { h with active := fun _ => rfl }
  | pipe l =>
    cases l with
    | post =>
      cases hstep
      refine { h with pipe := h.pipe.post, named := fun prevnum k hmem => h.named prevnum k ?_ }
      simpa using hmem
    | session =>
      simp only [retrySystem, system] at hstep
      split at hstep
      · cases hstep
      · next hactive =>
        split at hstep
        · cases hstep
        · cases hstep
          refine { h with
            pipe := h.pipe.session
            active := fun _ => by simpa using hactive
            named := fun prevnum k hmem => h.named prevnum k ?_ }
          simpa using hmem
    | handle a =>
      simp only [retrySystem] at hstep
      split at hstep
      · cases hstep
      · next e rest htodo =>
        cases hstep
        cases e with
        | init => exact h.handled_init htodo
        | step prevnum k => exact h.handled_step htodo

/-! ## Runs that show the shared file -/

/-- The next session looks at step `k`, and nothing else. -/
def Waiting (s : Retrying) (k : Nat) : Prop :=
  s.pipe.todo = [] ∧ s.paused = false ∧ ∃ prevnum, s.pipe.events ++ s.pipe.queue = [.step prevnum k]

section
variable (hr : (retrySystem c (some r)).Reach s) (h : Waiting s k)
include hr h

theorem Waiting.round (a : Answers) :
    ∃ (prevnum : Option Nat) (pipe : State), pipe.queue = [] ∧ pipe.events = [.step prevnum k] ∧
      (retrySystem c (some r)).Reach
        (Retrying.handled (some r) { s with pipe := pipe } (.step prevnum k) []
        (pipe.mounted, handlerStep c prevnum k a)) := by
  obtain ⟨htodo, hactive, prevnum, hevents⟩ := h
  let pipe :
      State := { s.pipe with queue := [], events := [.step prevnum k], todo := [.step prevnum k] }
  refine ⟨prevnum, pipe, rfl, rfl, ?_⟩
  have hsession : (retrySystem c (some r)).Reach { s with pipe := pipe } := by
    refine hr.step (l := .pipe .session) trivial ?_
    simp only [retrySystem, system, hactive, htodo, hevents]
    rfl
  exact hsession.step (l := .pipe (.handle a)) trivial rfl

theorem Waiting.pass (hk : pipeName c.pipeline k ≠ []) :
    ∃ s', (retrySystem c (some r)).Reach s' ∧ Waiting s' (k + 1) ∧ s'.failures = s.failures := by
  obtain ⟨prevnum, pipe, hqueue, hevents, hround⟩ := h.round hr ⟨true, true, true, true, true, 0⟩
  obtain ⟨prevnum', entry, hout, hquiet⟩ :
      ∃ prevnum' entry, handlerStep c prevnum k ⟨true, true, true, true, true, 0⟩ =
      ⟨true, some (.step prevnum' (k + 1)), entry⟩ ∧ entry.bind Entry.failed = none := by
    rw [handlerStep_of_name (getElem?_of_pipeName_ne_nil hk) hk]
    by_cases hexe : c.executable (pipeName c.pipeline k) = true
    · simp [hexe, failed_ready]
    · simp [hexe]
  rw [hout, Retrying.handled_of_not_failed hquiet] at hround
  refine ⟨_, hround, ⟨rfl, h.2.1, prevnum', ?_⟩, rfl⟩
  simp [State.handled, hqueue, hevents]

theorem Waiting.fail (hk : CanRun c k) :
    ∃ s' paused, (retrySystem c (some r)).Reach s' ∧ s'.failures = s.failures ++ [⟨k, paused⟩] ∧
      (paused = false → Waiting s' k) := by
  obtain ⟨prevnum, pipe, hqueue, hevents, hround⟩ := h.round hr ⟨true, true, false, true, true, 1⟩
  obtain ⟨entry, n, hout, hfailed⟩ :
      ∃ entry n, handlerStep c prevnum k ⟨true, true, false, true, true, 1⟩ =
      ⟨false, none, some entry⟩ ∧ (some entry).bind Entry.failed = some (k, n) := by
    rw [handlerStep_of_name (getElem?_of_pipeName_ne_nil hk.ne_nil) hk.ne_nil]
    simp [hk.executable, pipeRetcodeStop, Entry.failed]
  rw [hout, Retrying.handled_of_failed (s := { s with pipe := pipe }) hfailed h.2.1] at hround
  refine ⟨_, _, hround, rfl, fun hpaused => ⟨rfl, hpaused, prevnum, ?_⟩⟩
  simp [State.handled, hqueue, hevents]

end

theorem exists_waiting_zero (h0 : pipeName c.pipeline 0 ≠ []) :
    ∃ s, (retrySystem c (some r)).Reach s ∧ Waiting s 0 ∧ s.failures = [] := by
  have hne : c.pipeline ≠ [] := by
    rintro hnil
    rw [hnil] at h0
    exact h0 rfl
  have hnone : (retrySystem c (some r)).Reach ⟨⟨[], [], [], false, []⟩, fun _ => none, false, []⟩ :=
    .init rfl
  have hsession := (hnone.step (l := .pipe .post) trivial rfl).step
    (l := .pipe .session) trivial rfl
  have hinit := hsession.step (l := .pipe (.handle ⟨true, true, true, true, true, 0⟩)) trivial rfl
  have hout :
      handlerInit c false ⟨true, true, true, true, true, 0⟩ =
        (true, ⟨true, some (.step none 0), none⟩) := by
    simp [handlerInit, hne]
  simp only [handler, hout, nil_append] at hinit
  exact ⟨_, hinit, ⟨rfl, rfl, none, rfl⟩, rfl⟩

theorem Waiting.pass_to (hr : (retrySystem c (some r)).Reach s) (h : Waiting s j) (hjk : j ≤ k)
    (hk : Named c k) :
    ∃ s', (retrySystem c (some r)).Reach s' ∧ Waiting s' k ∧ s'.failures = s.failures := by
  induction k, hjk using Nat.le_induction with
  | base => exact ⟨s, hr, h, rfl⟩
  | succ k _ ih =>
    obtain ⟨s₁, hr₁, h₁, hf₁⟩ := ih fun i hi => hk i (Nat.lt_succ_of_lt hi)
    obtain ⟨s₂, hr₂, h₂, hf₂⟩ := h₁.pass hr₁ (hk k (Nat.lt_succ_self k))
    exact ⟨s₂, hr₂, h₂, hf₂.trans hf₁⟩

/-- A step can fail `r` times without the queue being paused. -/
theorem Waiting.fail_times (hr : (retrySystem c (some r)).Reach s) (h : Waiting s k)
    (hk : CanRun c k) (hnone : s.failures = []) (hn : (n : Int) ≤ r) :
    ∃ s', (retrySystem c (some r)).Reach s' ∧ Waiting s' k ∧ s'.failures =
      List.replicate n ⟨k, false⟩ := by
  induction n with
  | zero => exact ⟨s, hr, h, hnone⟩
  | succ n ih =>
    obtain ⟨s₁, hr₁, h₁, hf₁⟩ := ih (by omega)
    obtain ⟨s₂, paused, hr₂, hf₂, h₂⟩ := h₁.fail hr₁ hk
    have hlimit : SharedLimit c r s₁.failures ⟨k, paused⟩ :=
      (Log.justified_concat.1 (hf₂ ▸ (retryInv_of_reach hr₂).shared)).2
    have hpaused : paused = false := by
      rw [SharedLimit, hf₁, countP_replicate, if_pos (decide_eq_true rfl)] at hlimit
      exact Bool.eq_false_iff.2 fun hp => absurd (hlimit.1 hp) (by omega)
    refine ⟨s₂, hr₂, h₂ hpaused, ?_⟩
    rw [hf₂, hf₁, hpaused, ← replicate_succ']

theorem exists_not_ownLimit {m : Nat} (hm : m ≠ 0) (hj : CanRun c j) (hk : CanRun c k) (hjk : j < k)
    (hnum : pipeCallnum c.pipeline j = pipeCallnum c.pipeline k) :
    ∃ s, (retrySystem c (some m)).Reach s ∧ ¬ Log.Justified (OwnLimit m) s.failures := by
  obtain ⟨s₀, hr₀, h₀, hf₀⟩ := exists_waiting_zero (r := m) (hj.named 0 (Nat.succ_pos j))
  obtain ⟨s₁, hr₁, h₁, hf₁⟩ := h₀.pass_to hr₀ (Nat.zero_le j) fun i hi => hj.named i
    (Nat.lt_succ_of_lt hi)
  obtain ⟨s₂, hr₂, h₂, hf₂⟩ := h₁.fail_times hr₁ hj (hf₁.trans hf₀) (Int.le_refl m)
  obtain ⟨s₃, hr₃, h₃, hf₃⟩ := h₂.pass_to hr₂ hjk.le fun i hi => hk.named i (Nat.lt_succ_of_lt hi)
  obtain ⟨s₄, paused, hr₄, hf₄, -⟩ := h₃.fail hr₃ hk
  refine ⟨s₄, hr₄, fun hown => ?_⟩
  have hshared : SharedLimit c m s₃.failures ⟨k, paused⟩ :=
    (Log.justified_concat.1 (hf₄ ▸ (retryInv_of_reach hr₄).shared)).2
  have hlimit : OwnLimit m s₃.failures ⟨k, paused⟩ := (Log.justified_concat.1 (hf₄ ▸ hown)).2
  rw [SharedLimit, hf₃, hf₂, countP_replicate, if_pos (decide_eq_true hnum)] at hshared
  rw [OwnLimit, hf₃, hf₂, countP_replicate, if_neg (by simpa using hjk.ne)] at hlimit
  have := hlimit.1 (hshared.2 (Int.lt_succ m))
  omega

theorem exists_first (hk : CanRun c k) :
    ∃ j, CanRun c j ∧ pipeName c.pipeline j = pipeName c.pipeline k ∧
      pipeCallnum c.pipeline j = some 0 := by
  have hex : ∃ j, pipeName c.pipeline j = pipeName c.pipeline k := ⟨k, rfl⟩
  obtain ⟨j, hj, hfirst⟩ := Nat.findX hex
  have hjk : j ≤ k := Nat.not_lt.1 fun hkj => hfirst k hkj rfl
  have hne : pipeName c.pipeline j ≠ [] := hj ▸ hk.ne_nil
  refine ⟨j, ⟨fun i hi => hk.named i (by omega), hj ▸ hk.executable⟩, hj, ?_⟩
  rw [pipeCallnum_of_pipeName_ne_nil hne, Option.some_inj, count_eq_zero]
  intro hmem
  obtain ⟨i, hi⟩ := mem_iff_getElem?.1 hmem
  rw [getElem?_take] at hi
  split_ifs at hi with hij
  refine hfirst i hij ?_
  rw [← hj, pipeName, hi, Option.getD_some]

/-! ## The limit of a step -/

/-- A step is allowed `r` failures of its own in every run of the queue if and only if `r` allows
none or there is no second script with which a step could share its file. -/
theorem retry_ownLimit_iff (c : Config) (r : Int) :
    (∀ s, (retrySystem c (some r)).Reach s → Log.Justified (OwnLimit r) s.failures) ↔ r ≤ 0 ∨
      OneScript c := by
  constructor
  · intro hown
    by_contra hnot
    obtain ⟨hr, hone⟩ := not_or.1 hnot
    obtain ⟨m, rfl⟩ := Int.eq_ofNat_of_zero_le (Int.not_le.1 hr).le
    have hm : m ≠ 0 := by omega
    refine hone fun j k hj hk => by_contra fun hname => ?_
    obtain ⟨j', hj', hjname, hjnum⟩ := exists_first hj
    obtain ⟨k', hk', hkname, hknum⟩ := exists_first hk
    rcases Nat.lt_trichotomy j' k' with hlt | rfl | hlt
    · obtain ⟨s, hs, hviolated⟩ := exists_not_ownLimit hm hj' hk' hlt (hjnum.trans hknum.symm)
      exact hviolated (hown s hs)
    · exact hname (hjname.symm.trans hkname)
    · obtain ⟨s, hs, hviolated⟩ := exists_not_ownLimit hm hk' hj' hlt (hknum.trans hjnum.symm)
      exact hviolated (hown s hs)
  · intro h s hs pre f post hlog
    have hinv := retryInv_of_reach hs
    have hshared : SharedLimit c r pre f := hinv.shared pre f post hlog
    rcases h with hr | hone
    · exact iff_of_true (hshared.2 (by omega)) (by omega)
    · have hf := hinv.ran f (by simp [hlog])
      have hcount :
          pre.countP (fun g => pipeCallnum c.pipeline g.pipenum =
            pipeCallnum c.pipeline f.pipenum) =
          pre.countP (·.pipenum = f.pipenum) := by
        refine countP_congr fun g hg => ?_
        have hrun := hinv.ran g (by simp [hlog, hg])
        simp only [decide_eq_true_eq]
        exact ⟨eq_of_pipeCallnum_eq hrun.ne_nil hf.ne_nil (hone _ _ hrun hf), fun heq => by
          rw [heq]⟩
      rwa [OwnLimit, ← hcount]

def getimageRootfs : Config := ⟨text "getimage,rootfs", fun _ => true⟩

/-- A run in which the script of the first step fails before it succeeds, and that of the second
fails -/
def failing : List RetryLabel :=
  let answers (rc : Nat) : Answers := ⟨true, true, false, true, true, rc⟩
  [.pipe .post, .pipe .session, .pipe (.handle (answers 0)), .pipe .session,
    .pipe (.handle (answers 1)),
    .pipe .session, .pipe (.handle (answers 0)), .pipe .session, .pipe (.handle (answers 1))]

/-- With `pipeline=getimage,rootfs` and `pipe-retry=1`, a failure of `getimage` leaves none to
`rootfs`. -/
theorem not_retry_ownLimit :
    ¬ ∀ (c : Config) (r : Int) (s : Retrying), (retrySystem c (some r)).Reach s →
      Log.Justified (OwnLimit r) s.failures := by
  intro h
  obtain ⟨s, hs, hfailures⟩ := Lts.reach_of_exec
    (T := retrySystem getimageRootfs (some 1)) rfl failing
    (fun s => s.failures = [⟨0, false⟩, ⟨1, true⟩]) (by decide +kernel)
  have hown := h _ _ s hs [⟨0, false⟩] ⟨1, true⟩ [] (of_decide_eq_true hfailures)
  exact absurd (hown.1 rfl) (by decide)

/-! ## Failures and the order of the steps -/

/-- The files hold the number of failed scripts of the log by their `callnum`, or nothing without
`PIPE_RETRY`, and a queue is paused only with a file that is over the limit. -/
structure Retrying.Counted (retry : Option Int) (s : Retrying) : Prop where
  files : ∀ n, (s.stepFailed n).getD 0 =
    if retry.isSome then (s.pipe.log.filterMap Entry.failed).countP (·.2 = n) else 0
  paused : s.paused = true → ∃ r ∈ retry, ∃ n, r < (s.stepFailed n).getD 0

theorem handled_pipe (retry : Option Int) (s : Retrying) (e : Event) (rest : List Event)
    (out : Bool × Outcome) : (s.handled retry e rest out).pipe = s.pipe.handled e rest out := by
  rw [Retrying.handled]
  cases out.2.entry.bind Entry.failed <;> rfl

/-- The files count the failures. -/
theorem Retrying.Counted.handled (h : s.Counted retry) (e : Event) (rest : List Event)
    (out : Bool × Outcome) : (s.handled retry e rest out).Counted retry := by
  have hlog : (s.pipe.handled e rest out).log.filterMap Entry.failed =
      s.pipe.log.filterMap Entry.failed ++ (out.2.entry.bind Entry.failed).toList := by
    rw [show (s.pipe.handled e rest out).log = s.pipe.log ++ out.2.entry.toList from rfl,
      filterMap_append]
    congr 1
    cases out.2.entry with
    | none => rfl
    | some entry => cases hfailed : entry.failed <;> simp [hfailed]
  cases hfailed : out.2.entry.bind Entry.failed with
  | none =>
    rw [Retrying.handled_of_not_failed hfailed]
    refine ⟨fun n => ?_, h.paused⟩
    simp only [hlog, hfailed, Option.toList_none, append_nil]
    exact h.files n
  | some f =>
    obtain ⟨k, callnum⟩ := f
    cases retry with
    | none =>
      rw [Retrying.handled, hfailed]
      refine ⟨h.files, fun hpaused => h.paused ?_⟩
      simpa [pipeFailed] using hpaused
    | some r =>
      rw [Retrying.handled, hfailed]
      have hcallnum := h.files callnum
      simp only [Option.isSome_some, if_true] at hcallnum
      refine ⟨fun n => ?_, fun hpaused => ?_⟩
      · simp only [hlog, hfailed, pipeFailed, Option.isSome_some, if_true, Option.toList_some,
          countP_append, countP_singleton, decide_eq_true_eq]
        by_cases hn : callnum = n
        · subst hn
          rw [Function.update_self, if_pos rfl, Option.getD_some, hcallnum]
        · rw [Function.update_of_ne (Ne.symm hn), if_neg hn, Nat.add_zero]
          simpa using h.files n
      · -- the count of a file does not go down
        have hle (n : Nat) :
            (s.stepFailed n).getD 0 ≤ ((pipeFailed (some r) s.stepFailed callnum).1 n).getD 0 := by
          by_cases hn : n = callnum
          · subst hn
            simp [pipeFailed]
          · simp [pipeFailed, Function.update_of_ne hn]
        simp only [pipeFailed, Bool.or_eq_true, Bool.not_eq_true',
          decide_eq_false_iff_not] at hpaused
        rcases hpaused with hpaused | hpaused
        · obtain ⟨r', hr', n, hn⟩ := h.paused hpaused
          have := hle n
          exact ⟨r', hr', n, by simp only; omega⟩
        · exact ⟨r, rfl, callnum, by simpa [pipeFailed] using hpaused⟩

end MakeInitrd.Pipeline
