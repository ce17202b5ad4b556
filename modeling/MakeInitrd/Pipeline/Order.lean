import MakeInitrd.Pipeline.Handler

/-!
# The steps of the pipeline are taken in order

The event of step `k` is only ever posted after all steps before `k` are passed, and there is never
a second one (`Inv`). So whatever the handler starts, the log so far has a reason for it (`Due`), in
every run of the queue.
-/

namespace MakeInitrd.Pipeline

open CMem Words List

/-! ## What the order of the steps is -/

section
variable (c : Config)

/-- The script of the element with the number `k` exists. -/
def HasScript (k : Nat) : Prop := ∃ name, (elements c.pipeline)[k]? = some name ∧ c.executable name

def Succeeded (log : List Entry) (k : Nat) : Prop := ∃ dir n, .started k dir n 0 ∈ log

/-- The step has succeeded, or its destination was mounted already. -/
def Passed (log : List Entry) (k : Nat) : Prop := Succeeded log k ∨ .ready k ∈ log

def Stopped (log : List Entry) : Prop := ∃ k dir n, .started k dir n pipeRetcodeStop ∈ log

/-- `prevnum` is the number of the nearest step before `k` whose script exists. -/
def Nearest (k : Nat) : Option Nat → Prop
  | none => ∀ j < k, ¬ HasScript c j
  | some p => p < k ∧ HasScript c p ∧ ∀ j < k, p < j → ¬ HasScript c j

/-- The log allows step `k` to be started with `dir` as `prevdir` and with `n` as `callnum`. -/
structure Due (log : List Entry) (k : Nat) (dir : Bytes) (n : Nat) : Prop where
  passed : ∀ j < k, HasScript c j → Passed log j
  running : ¬ Stopped log
  prev : ∃ prevnum, Nearest c k prevnum ∧ dir = prevdir prevnum
  callnum : ∃ name, (elements c.pipeline)[k]? = some name ∧ n =
    ((elements c.pipeline).take k).count name
  again : ¬ Succeeded log k

/-- Steps that are started are due. -/
def InOrder (log : List Entry) : Prop :=
  Log.Justified (fun pre e => ∀ k dir n rc, e = .started k dir n rc → Due c pre k dir n) log

/-! ## The invariant -/

/-- The log allows the event of step `k`. -/
structure Posted (log : List Entry) (prevnum : Option Nat) (k : Nat) : Prop where
  passed : ∀ j < k, HasScript c j → Passed log j
  running : ¬ Stopped log
  prev : Nearest c k prevnum
  ahead : ∀ j, Succeeded log j → j < k

structure Inv (s : State) : Prop where
  order : InOrder c s.log
  todo : (steps s.todo).Sublist (steps s.events)
  /-- Before `/dev/pipeline` is mounted nothing has happened. -/
  fresh : s.mounted = false → s.pending = [] ∧ s.log = []
  pending : s.pending = [] ∨ ∃ prevnum k, s.pending = [.step prevnum k] ∧ Posted c s.log prevnum k

end

variable {c : Config} {log : List Entry} {e : Entry} {prevnum : Option Nat} {k j n rc : Nat}
    {dir : Bytes} {a : Answers}
  {s s' : State}

theorem succeeded_concat :
    Succeeded (log ++ [e]) j ↔ Succeeded log j ∨ ∃ dir n, e = .started j dir n 0 := by
  simp only [Succeeded, mem_append, mem_singleton, eq_comm (b := e)]
  constructor
  · rintro ⟨dir, n, h | h⟩
    · exact Or.inl ⟨dir, n, h⟩
    · exact Or.inr ⟨dir, n, h⟩
  · rintro (⟨dir, n, h⟩ | ⟨dir, n, h⟩)
    · exact ⟨dir, n, Or.inl h⟩
    · exact ⟨dir, n, Or.inr h⟩

theorem stopped_concat :
    Stopped (log ++ [e]) ↔ Stopped log ∨ ∃ k dir n, e = .started k dir n pipeRetcodeStop := by
  simp only [Stopped, mem_append, mem_singleton, eq_comm (b := e)]
  constructor
  · rintro ⟨k, dir, n, h | h⟩
    · exact Or.inl ⟨k, dir, n, h⟩
    · exact Or.inr ⟨k, dir, n, h⟩
  · rintro (⟨k, dir, n, h⟩ | ⟨k, dir, n, h⟩)
    · exact ⟨k, dir, n, Or.inl h⟩
    · exact ⟨k, dir, n, Or.inr h⟩

theorem Passed.concat (h : Passed log j) : Passed (log ++ [e]) j :=
  h.imp (fun h => succeeded_concat.2 (Or.inl h)) (fun h => mem_append_left _ h)

/-! ## One step of the handler -/

theorem Posted.due (h : Posted c log prevnum k) {name : Bytes}
    (hname : (elements c.pipeline)[k]? = some name) :
    Due c log k (prevdir prevnum) (((elements c.pipeline).take k).count name) where
  passed := h.passed
  running := h.running
  prev := ⟨prevnum, h.prev, rfl⟩
  callnum := ⟨name, hname, rfl⟩
  again hk := absurd (h.ahead k hk) (Nat.lt_irrefl k)

theorem Posted.skip (h : Posted c log prevnum k) (hk : ¬ HasScript c k) :
    Posted c log prevnum (k + 1) where
  passed j hj hs := by
    rcases Nat.lt_succ_iff_lt_or_eq.1 hj with hj | rfl
    · exact h.passed j hj hs
    · exact absurd hs hk
  running := h.running
  prev := by
    have hprev := h.prev
    cases prevnum with
    | none =>
      intro j hj
      rcases Nat.lt_succ_iff_lt_or_eq.1 hj with hj | rfl
      · exact hprev j hj
      · exact hk
    | some p =>
      refine ⟨Nat.lt_succ_of_lt hprev.1, hprev.2.1, fun j hj hpj => ?_⟩
      rcases Nat.lt_succ_iff_lt_or_eq.1 hj with hj | rfl
      · exact hprev.2.2 j hj hpj
      · exact hk
  ahead j hj := Nat.lt_succ_of_lt (h.ahead j hj)

theorem Posted.next (h : Posted c log prevnum k) (hk : HasScript c k)
    (he : e = .ready k ∨ ∃ dir n, e = .started k dir n 0) :
    Posted c (log ++ [e]) (some k) (k + 1) where
  passed j hj hs := by
    rcases Nat.lt_succ_iff_lt_or_eq.1 hj with hj | rfl
    · exact (h.passed j hj hs).concat
    · rcases he with rfl | he
      · exact Or.inr (by simp)
      · exact Or.inl (succeeded_concat.2 (Or.inr he))
  running hstop := by
    rcases stopped_concat.1 hstop with hstop | ⟨_, _, _, rfl⟩
    · exact h.running hstop
    · rcases he with he | ⟨_, _, he⟩ <;> cases he
  prev := ⟨Nat.lt_succ_self k, hk, fun j hj hkj => absurd hkj (Nat.not_lt.2 (Nat.le_of_lt_succ hj))⟩
  ahead j hj := by
    rcases succeeded_concat.1 hj with hj | ⟨_, _, rfl⟩
    · exact Nat.lt_succ_of_lt (h.ahead j hj)
    · rcases he with he | ⟨_, _, he⟩ <;> cases he
      exact Nat.lt_succ_self _

theorem Posted.retry (h : Posted c log prevnum k) (h0 : rc ≠ 0) (hstop : rc ≠ pipeRetcodeStop) :
    Posted c (log ++ [.started k dir n rc]) prevnum k where
  passed j hj hs := (h.passed j hj hs).concat
  running hs := by
    rcases stopped_concat.1 hs with hs | ⟨_, _, _, hs⟩
    · exact h.running hs
    · cases hs
      exact hstop rfl
  prev := h.prev
  ahead j hj := by
    rcases succeeded_concat.1 hj with hj | ⟨_, _, hj⟩
    · exact h.ahead j hj
    · cases hj
      exact absurd rfl h0

theorem InOrder.ready (h : InOrder c log) : InOrder c (log ++ [.ready k]) :=
  Log.justified_concat.2 ⟨h, fun _ _ _ _ he => nomatch he⟩

theorem InOrder.started (h : InOrder c log) (hdue : Due c log k dir n) :
    InOrder c (log ++ [.started k dir n rc]) := by
  refine Log.justified_concat.2 ⟨h, fun _ _ _ _ he => ?_⟩
  cases he
  exact hdue

/-- What the handler of a step event leaves: the event of the next step or none, or the event itself
if it fails. -/
def Left (c : Config) (log : List Entry) (prevnum : Option Nat) (k : Nat) (out : Outcome) : Prop :=
  if out.ok then ∀ e, out.post = some e → ∃ prevnum', e = .step prevnum' (k + 1) ∧
    Posted c log prevnum' (k + 1)
  else out.post = none ∧ Posted c log prevnum k

/-- The handler starts the step that is due, or skips it. -/
theorem handlerStep_spec (hpost : Posted c log prevnum k) (horder : InOrder c log) :
    let out := handlerStep c prevnum k a
    InOrder c (log ++ out.entry.toList) ∧ Left c (log ++ out.entry.toList) prevnum k out := by
  intro out
  have hover (o : Option Entry) : Left c (log ++ o.toList) prevnum k ⟨true, none, o⟩ :=
    fun _ he => nomatch he
  have hstay : Left c (log ++ []) prevnum k ⟨false, none, none⟩ := ⟨rfl, by simpa using hpost⟩
  rcases pipeName_cases c.pipeline k with hnil | ⟨name, hname, hne, -⟩
  · have hout : out = ⟨true, none, none⟩ := handlerStep_of_pipeName_nil hnil
    rw [hout]
    exact ⟨by simpa using horder, hover none⟩
  · have hdue := hpost.due hname
    have hout : out = _ := handlerStep_of_name hname hne
    rw [hout]
    by_cases hexe : c.executable name = true
    · have hk : HasScript c k := ⟨name, hname, hexe⟩
      simp only [hexe, Bool.not_true, Bool.false_eq_true, if_false]
      split_ifs with hready hdata hdest h0 hstop
      · exact ⟨horder.ready, fun _ he => ⟨_, (Option.some.inj he).symm, hpost.next hk (Or.inl rfl)⟩⟩
      · exact ⟨by simpa using horder, hstay⟩
      · exact ⟨by simpa using horder, hstay⟩
      · refine ⟨horder.started hdue, fun _ he => ⟨_, (Option.some.inj he).symm, ?_⟩⟩
        exact hpost.next hk (Or.inr ⟨_, _, by rw [h0]⟩)
      · exact ⟨horder.started hdue, hover _⟩
      · exact ⟨horder.started hdue, rfl, hpost.retry h0 hstop⟩
    · have hk : ¬ HasScript c k := by
        rintro ⟨name', hname', hexe'⟩
        obtain rfl : name' = name := Option.some.inj (hname'.symm.trans hname)
        exact hexe hexe'
      simp only [hexe, Bool.not_false, if_true]
      refine ⟨by simpa using horder, fun _ he => ⟨_, (Option.some.inj he).symm, ?_⟩⟩
      simpa using hpost.skip hk

/-! ## Runs of the queue -/

theorem steps_append (es fs : List Event) : steps (es ++ fs) = steps es ++ steps fs :=
  filter_append ..

@[simp] theorem steps_nil : steps [] = [] := rfl

@[simp] theorem steps_cons_init (es : List Event) : steps (.init :: es) = steps es := rfl

@[simp] theorem steps_cons_step (p : Option Nat) (k : Nat) (es : List Event) :
    steps (.step p k :: es) = .step p k :: steps es := rfl

theorem steps_erase (es : List Event) (e : Event) : steps (es.erase e) = (steps es).erase e :=
  erase_filter.symm

theorem steps_erase_init (es : List Event) : steps (es.erase .init) = steps es := by
  rw [steps_erase]
  exact erase_of_not_mem fun h => absurd (of_mem_filter h) (by decide)

theorem Inv.init : Inv c ⟨[], [], [], false, []⟩ where
  order := Log.justified_nil
  todo := List.Sublist.refl _
  fresh _ := ⟨rfl, rfl⟩
  pending := Or.inl rfl

theorem Inv.of_pending (h : Inv c s) (htodo : (steps s'.todo).Sublist (steps s'.events))
    (hpending : s'.pending = s.pending) (hlog : s'.log = s.log)
    (hm : s'.mounted = false → s.mounted = false) :
    Inv c s' where
  order := hlog ▸ h.order
  todo := htodo
  fresh hf := by
    rw [hpending, hlog]
    exact h.fresh (hm hf)
  pending := by
    rw [hpending, hlog]
    exact h.pending

theorem Inv.post (h : Inv c s) : Inv c { s with queue := s.queue ++ [.init] } :=
  h.of_pending h.todo (by simp [State.pending, steps, Event.isStep]) rfl id

theorem Inv.session (h : Inv c s) : Inv c { s with
    queue := [], events := s.events ++ s.queue,
    todo := (s.events ++ s.queue).filter (!·.isStep) ++ steps (s.events ++ s.queue) } := by
  have hinits : steps ((s.events ++ s.queue).filter (!·.isStep)) = [] := by
    simp [steps, filter_filter]
  have hsteps : steps (steps (s.events ++ s.queue)) = steps (s.events ++ s.queue) := by simp [steps]
  refine h.of_pending ?_ (by simp [State.pending]) rfl id
  show (steps (_ ++ _)).Sublist (steps (s.events ++ s.queue))
  rw [steps_append, hinits, hsteps, nil_append]

/-- The handler of an init event posts the first step if it mounts `/dev/pipeline`, and nothing
otherwise. -/
theorem Inv.handled_init (h : Inv c s) {rest : List Event} (htodo : s.todo = .init :: rest) :
    Inv c (s.handled .init rest (handlerInit c s.mounted a)) := by
  have hsub : (steps rest).Sublist (steps s.events) := by
    have hsub := h.todo
    rwa [htodo, steps_cons_init] at hsub
  have hevents (ok : Bool) :
      steps (if ok then s.events.erase .init else s.events) = steps s.events := by
    cases ok
    · rfl
    · exact steps_erase_init _
  have hsub' (ok : Bool) :
      (steps rest).Sublist (steps (if ok then s.events.erase .init else s.events)) := by
    rwa [hevents]
  rcases handlerInit_spec c s.mounted a with ⟨hpost, hentry, hm⟩ | ⟨hm, hout⟩
  · generalize handlerInit c s.mounted a = out at hpost hentry hm
    refine h.of_pending (hsub' _) ?_ (by simp [State.handled, hentry]) hm
    simp only [State.pending, State.handled, steps_append, hevents, hpost,
      Option.toList_none, append_nil]
  · rw [hout]
    obtain ⟨hpending, hlog⟩ := h.fresh hm
    have hnone : ∀ e : Entry, e ∉ s.log := by simp [hlog]
    have hnew : steps (s.events.erase .init ++ (s.queue ++ [.step none 0])) = [.step none 0] := by
      rw [← append_assoc, steps_append, steps_append, steps_erase_init, ← steps_append,
        ← State.pending, hpending]
      rfl
    refine ⟨by simpa [State.handled] using h.order, hsub' true, (fun hm => nomatch hm),
      Or.inr ⟨none, 0, hnew, ?_⟩⟩
    simp only [State.handled, Option.toList_none, append_nil]
    exact {
      passed := fun _ hj => absurd hj (Nat.not_lt_zero _)
      running := fun ⟨_, _, _, hmem⟩ => hnone _ hmem
      prev := fun _ hj => absurd hj (Nat.not_lt_zero _)
      ahead := fun _ ⟨_, _, hmem⟩ => absurd hmem (hnone _) }

theorem Inv.current (h : Inv c s) {rest : List Event} (htodo : s.todo = .step prevnum k :: rest) :
    steps s.events = [.step prevnum k] ∧ steps s.queue = [] ∧ steps rest = [] ∧
      Posted c s.log prevnum k := by
  have hsub := h.todo
  rw [htodo, steps_cons_step] at hsub
  have hpending := h.pending
  rw [State.pending, steps_append] at hpending
  have hmem : Event.step prevnum k ∈ steps s.events := hsub.subset mem_cons_self
  rcases hpending with hnil | ⟨p, k', hone, hpost⟩
  · rw [(append_eq_nil_iff.1 hnil).1] at hmem
    cases hmem
  · rcases append_eq_singleton_iff.1 hone with ⟨hev, -⟩ | ⟨hev, hq⟩
    · rw [hev] at hmem
      cases hmem
    · rw [hev] at hmem hsub
      obtain ⟨rfl, rfl⟩ : prevnum = p ∧ k = k' := by simpa using hmem
      refine ⟨hev, hq, ?_, hpost⟩
      exact eq_nil_of_sublist_nil (cons_sublist_cons.1 hsub)

theorem Inv.handled_step (h : Inv c s) {rest : List Event}
    (htodo : s.todo = .step prevnum k :: rest) :
    Inv c (s.handled (.step prevnum k) rest (s.mounted, handlerStep c prevnum k a)) := by
  obtain ⟨hev, hq, hrest, hpost⟩ := h.current htodo
  obtain ⟨horder, hleft⟩ := handlerStep_spec (a := a) hpost h.order
  have hmounted : s.mounted = true := by
    by_contra hm
    have hnil := (h.fresh (by simpa using hm)).1
    rw [State.pending, steps_append, hev] at hnil
    simp at hnil
  have hrest' (es : List Event) : (steps rest).Sublist (steps es) := hrest ▸ nil_sublist _
  generalize handlerStep c prevnum k a = out at horder hleft
  refine ⟨horder, hrest' _, fun hm => absurd (hmounted.symm.trans hm) (by decide), ?_⟩
  by_cases hok : out.ok = true
  · rw [Left, if_pos hok] at hleft
    have hnew : steps (s.events.erase (.step prevnum k)) = [] := by
      rw [steps_erase, hev, erase_cons_head]
    cases hpost : out.post with
    | none => exact Or.inl (by simp [State.pending, State.handled, hok, hpost,
      steps_append, hnew, hq])
    | some e =>
      obtain ⟨prevnum', rfl, hposted⟩ := hleft e hpost
      refine Or.inr ⟨prevnum', k + 1, ?_, hposted⟩
      simp [State.pending, State.handled, hok, hpost, steps_append, hnew, hq]
  · rw [Left, if_neg hok] at hleft
    refine Or.inr ⟨prevnum, k, ?_, hleft.2⟩
    simp [State.pending, State.handled, hok, hleft.1, steps_append, hev, hq]

/-- The invariant of all runs of the queue -/
theorem inv_of_reach (hr : (system c).Reach s) : Inv c s := by
  refine hr.invariant (fun s hs => hs ▸ Inv.init) fun s l s' _ h _ hstep => ?_
  cases l with
  | post =>
    cases hstep
    exact h.post
  | session =>
    simp only [system] at hstep
    split at hstep
    · cases hstep
    · cases hstep
      exact h.session
  | handle a =>
    simp only [system] at hstep
    split at hstep
    · cases hstep
    · next e rest htodo =>
      cases hstep
      cases e with
      | init => exact h.handled_init htodo
      | step prevnum k => exact h.handled_step htodo

/-- The pipeline takes its steps in order: in every run of its queue, whatever the scripts exit
with, there is at most one step event nobody is done with, and every step that was started was due.
-/
theorem steps_in_order (c : Config) (s : State) (hr : (system c).Reach s) : s.pending.length ≤ 1 ∧
      ∀ pre k dir n rc post, s.log = pre ++ .started k dir n rc :: post → Due c pre k dir n := by
  have h := inv_of_reach hr
  refine ⟨?_, fun pre k dir n rc post hlog => h.order pre _ post hlog k dir n rc rfl⟩
  rcases h.pending with hnil | ⟨prevnum, k, hone, -⟩
  · simp [hnil]
  · simp [hone]

/-- A pipeline of two scripts and an element without a script between them. -/
def twoScripts : Config where
  pipeline := text "getimage,none,rootfs"
  executable name := name ≠ text "none"

/-- Its run, in which the second script fails once and then requests a stop. -/
def twoScriptsRun : List Label :=
  let answers (rc : Nat) : Answers := ⟨true, true, false, true, true, rc⟩
  [.post, .session, .handle (answers 0), .session, .handle (answers 0), .session,
    .handle (answers 0),
    .session, .handle (answers 1), .session, .handle (answers pipeRetcodeStop)]

def twoScriptsEnd : State where
  queue := []
  events := []
  todo := []
  mounted := true
  log := [.started 0 [] 0 0, .started 2 (destdir 0) 0 1, .started 2 (destdir 0) 0 2]

theorem steps_in_order_twoScripts : (system twoScripts).Reach twoScriptsEnd ∧
      Due twoScripts [.started 0 [] 0 0, .started 2 (destdir 0) 0 1] 2 (destdir 0) 0 := by
  have hexec : (system twoScripts).exec (fun _ _ => true) ⟨[], [], [], false, []⟩ twoScriptsRun =
      some twoScriptsEnd := by
    decide +kernel
  have hreach : (system twoScripts).Reach twoScriptsEnd :=
    (Lts.ReachBy.exec (.init rfl) hexec).mono fun _ _ _ => trivial
  exact ⟨hreach, (steps_in_order _ _ hreach).2 _ 2 (destdir 0) 0 2 [] rfl⟩

end MakeInitrd.Pipeline
