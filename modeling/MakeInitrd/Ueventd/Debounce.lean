import MakeInitrd.Ueventd.Origin
import MakeInitrd.Ueventd.RaidMember

/-!
# Which activation `process_timeout` acts on

A run of `100-timeout` that consumes a member event drops the activations in the event directory and
in the timer directory. One that the daemon has moved to the queue directory after the worker has
read it is in neither: it survives, and a later run acts on it although a newer one is scheduled
(`not_timeout_of_lastMember`).

`Debounced` is the invariant of the runs in which this does not happen: every activation, wherever
it lies, was scheduled by the last run that consumed a member event, or a run of the script is about
to drop it.
-/

namespace MakeInitrd.Ueventd.Raid

open List

variable {ent : Dirent}

theorem mem_entries {t : QueueTree} : ent ∈ entries t ↔ t.Has queue ent := by
  unfold entries QueueTree.Has
  cases t.lookup queue <;> simp

variable {name : String}

theorem isTimer_of_isActivation (h : isActivation name = true) : isTimer name = true := by
  obtain ⟨ev, hev, ht⟩ := (Option.any_eq_true _ _).1 h
  obtain ⟨rest, hrest⟩ := List.isPrefixOf_iff_prefix.1 ht
  unfold eventName at hev
  have hsplit := takeWhile_append_dropWhile (p := (· != '.')) (l := name.toList)
  cases hd : name.toList.dropWhile (· != '.') with
  | nil => simp [hd] at hev
  | cons dot tail =>
    have hdot : dot = '.' := by
      have hhead := head?_dropWhile_not (p := (· != '.')) (l := name.toList)
      simpa [hd] using hhead
    cases tail with
    | nil => simp [hd] at hev
    | cons c s =>
      have hlist : c :: s = ev.toList := by
        simp only [hd, Option.some.injEq] at hev
        rw [← hev, String.toList_ofList]
      rw [hd, hdot, hlist, ← hrest] at hsplit
      unfold isTimer
      refine decide_eq_true ⟨name.toList.takeWhile (· != '.'), rest, Eq.trans ?_ hsplit⟩
      rw [append_assoc]
      rfl

/-! ## What a run of the script is about to drop -/

namespace ScriptPc

/-- The run has consumed a member event and has not yet published its timer. -/
def Consumed : ScriptPc → Prop
  | .members _ true | .stale _ | .cancel _ | .schedule | .release _ => True
  | _ => False

/-- The run will drop this file of the timer directory. -/
def SparesTimer (name : String) : ScriptPc → Prop
  | .members _ true | .stale _ => True
  | .cancel names => name ∈ names
  | _ => False

/-- The run has not yet come to the point where the queue directory must be clean. -/
def SparesReady : ScriptPc → Prop
  | .members _ true | .stale _ | .cancel _ => True
  | _ => False

/-- The run will drop this file of the event directory. -/
def SparesEvent (name : String) : ScriptPc → Prop
  | .members _ true => True
  | .stale names => name ∈ names
  | _ => False

/-- The activations the run has consumed. -/
def taken : ScriptPc → List Nat
  | .timeouts _ taken | .processTimeout taken => taken
  | _ => []

/-- What holds of a place in the script whatever the directories hold. -/
def Ok : ScriptPc → Prop
  | .timeouts names _ => ∀ name ∈ names, isTimeout name = true
  | .processTimeout taken => taken ≠ []
  | _ => True

theorem SparesTimer.ready {pc : ScriptPc} (h : pc.SparesTimer name) : pc.SparesReady := by
  cases pc with
  | members names has =>
    cases has with
    | true => exact trivial
    | false => exact h.elim
  | stale | cancel => exact trivial
  | schedule | release | timeouts | processTimeout | done => exact h.elim

end ScriptPc

/-- The file is an activation of the last run that consumed a member event, or a run of the script
is at a place that spares it. -/
def State.Due (r : State) (ent : Dirent) (spares : ScriptPc → Prop) : Prop :=
  ent.dType = .reg ∧ (r.owner ent.dIno = r.lastMember ∨ ∃ pid sc,
    r.script pid = some sc ∧ spares sc.pc)

structure Debounced (r : State) : Prop where
  timer : ∀ ent, r.sys.k.timer.Has queue ent → isActivation ent.dName = true →
    r.Due ent (ScriptPc.SparesTimer ent.dName)
  ready : ∀ ent, r.sys.k.filter.Has queue ent → isTimeout ent.dName = true →
    r.Due ent ScriptPc.SparesReady
  event : ∀ ent, r.sys.k.uevent.Has queue ent → isTimeout ent.dName = true →
    r.Due ent (ScriptPc.SparesEvent ent.dName)
  own : ∀ pid sc, r.script pid = some sc → sc.pc.Consumed → sc.run = r.lastMember
  taken : ∀ pid sc, r.script pid = some sc → ∀ ino ∈ sc.pc.taken, r.owner ino = r.lastMember
  ok : ∀ pid sc, r.script pid = some sc → sc.pc.Ok
  phase : ∀ pid sc, r.script pid = some sc → ∃ w ∈ r.sys.ws, w.pid = pid ∧ w.qName = queue ∧
    w.pc = .handler

section
variable {r r' : State} {pid : Nat} {sc : Script}

theorem Debounced.script_unique (h : Debounced r) (hx : Exclusive r.sys.abs) {pid' : Nat}
    {sc' : Script} (hsc : r.script pid = some sc) (hsc' : r.script pid' = some sc') :
    pid' = pid := by
  obtain ⟨w, hw, rfl, hq, hpc⟩ := h.phase _ _ hsc
  obtain ⟨w', hw', rfl, hq', hpc'⟩ := h.phase _ _ hsc'
  rw [hx.eq_of_running hw' hw (hq'.trans hq.symm) (by rw [hpc']; rfl) (by rw [hpc]; rfl)]

theorem Debounced.eq_of_update (h : Debounced r) (hx : Exclusive r.sys.abs)
    (hsc : r.script pid = some sc) {pid' : Nat} {sc₁ sc' : Script}
    (h' : Function.update r.script pid (some sc₁) pid' = some sc') : pid' = pid ∧ sc' = sc₁ := by
  by_cases heq : pid' = pid
  · rw [heq, Function.update_self] at h'
    exact ⟨heq, (Option.some.inj h').symm⟩
  · rw [Function.update_of_ne heq] at h'
    exact absurd (h.script_unique hx hsc h') heq

variable {pc : ScriptPc}

/-- The script of `pid` goes on to `pc`, no file comes to the queue's directories, and what the old
place spared is spared by the new one or gone. -/
theorem Debounced.advance (h : Debounced r) (hx : Exclusive r.sys.abs)
    (hsc : r.script pid = some sc)
    (hscript : r'.script = Function.update r.script pid (some ⟨sc.run, pc⟩))
    (howner : r'.owner = r.owner) (hlast : r'.lastMember = r.lastMember)
    (hws : r'.sys.ws = r.sys.ws)
    (hT : ∀ ent, r'.sys.k.timer.Has queue ent → r.sys.k.timer.Has queue ent)
    (hF : ∀ ent, r'.sys.k.filter.Has queue ent → r.sys.k.filter.Has queue ent)
    (hE : ∀ ent, r'.sys.k.uevent.Has queue ent → r.sys.k.uevent.Has queue ent)
    (hsT : ∀ ent, r'.sys.k.timer.Has queue ent → isActivation ent.dName = true →
      sc.pc.SparesTimer ent.dName → pc.SparesTimer ent.dName)
    (hsF : ∀ ent, r'.sys.k.filter.Has queue ent → isTimeout ent.dName = true → sc.pc.SparesReady →
      pc.SparesReady)
    (hsE : ∀ ent, r'.sys.k.uevent.Has queue ent → isTimeout ent.dName = true →
      sc.pc.SparesEvent ent.dName → pc.SparesEvent ent.dName)
    (hown : pc.Consumed → sc.pc.Consumed) (htaken : ∀ ino ∈ pc.taken, r.owner ino = r.lastMember)
    (hok : pc.Ok) : Debounced r' := by
  have hself : r'.script pid = some ⟨sc.run, pc⟩ := by rw [hscript, Function.update_self]
  have honly : ∀ {pid' sc'}, r'.script pid' = some sc' → pid' = pid ∧ sc' = ⟨sc.run, pc⟩ := by
    rw [hscript]
    exact h.eq_of_update hx hsc
  have hdue : ∀ {ent : Dirent} {spares : ScriptPc → Prop}, r.Due ent spares →
      (spares sc.pc → spares pc) → r'.Due ent spares := by
    rintro ent spares ⟨hreg, hd⟩ hs
    refine ⟨hreg, ?_⟩
    rw [howner, hlast]
    refine hd.imp_right fun ⟨pid', sc', hsc', hsp⟩ => ⟨pid, _, hself, hs ?_⟩
    have hpid := h.script_unique hx hsc hsc'
    rw [hpid, hsc] at hsc'
    exact Option.some.inj hsc' ▸ hsp
  refine ⟨fun ent he ha => hdue (h.timer ent (hT ent he) ha) (hsT ent he ha),
    fun ent he ha => hdue (h.ready ent (hF ent he) ha) (hsF ent he ha),
    fun ent he ha => hdue (h.event ent (hE ent he) ha) (hsE ent he ha), ?_, ?_, ?_, ?_⟩
  · intro pid' sc' h' hc
    obtain ⟨rfl, rfl⟩ := honly h'
    exact (h.own _ _ hsc (hown hc)).trans hlast.symm
  · intro pid' sc' h' ino hino
    obtain ⟨rfl, rfl⟩ := honly h'
    rw [howner, hlast]
    exact htaken ino hino
  · intro pid' sc' h'
    obtain ⟨rfl, rfl⟩ := honly h'
    exact hok
  · intro pid' sc' h'
    obtain ⟨rfl, rfl⟩ := honly h'
    rw [hws]
    exact h.phase _ _ hsc

/-! ## The commands of the script -/

theorem via_unlink (h : Debounced r) (hx : Exclusive r.sys.abs) (hsc : r.script pid = some sc)
    (hv : r.via (.worker pid (.unlink name)) = some r') :
    r' = { r with sys := { r.sys with
      k.uevent := r.sys.k.uevent.modify queue (·.remove name) } } := by
  obtain ⟨w, hw, rfl, hq, hpc⟩ := h.phase _ _ hsc
  obtain ⟨s', hs, rfl⟩ := Option.map_eq_some_iff.1 hv
  obtain ⟨v, k, pc, hfind, hstep, rfl⟩ := step_worker hs
  have hvw : v = w := by
    exact inj_on_of_nodup_map hx.pids_nodup (mem_of_find?_eq_some hfind) hw
      (by simpa using find?_some hfind)
  subst hvw
  simp only [workerStep, hpc] at hstep
  split at hstep
  · cases hstep
    have hself := modifyFirst_eq_self (f := ({ · with pc := WorkerPc.handler })) hfind
      (by rw [← hpc])
    simp only [Sys.setWorker, hself, WorkerPc.dead, Bool.or_false, hq]
  · cases hstep

theorem regularEvent_isSome (h : Debounced r) (he : r.sys.k.uevent.Has queue ent)
    (ht : isTimeout ent.dName = true) : (regularEvent r.sys.k ent.dName).isSome = true := by
  obtain ⟨d, hd, hin⟩ := he
  cases hf : d.find ent.dName with
  | none => exact absurd (beq_self_eq_true _) (find?_eq_none.1 hf ent hin)
  | some e =>
    have hname : e.dName = ent.dName := by simpa using find?_some hf
    have hreg := (h.event e ⟨d, hd, mem_of_find?_eq_some hf⟩ (hname ▸ ht)).1
    simp [regularEvent, hd, hf, hreg]

theorem regularEvent_spec {k : Kernel}
    (h : regularEvent k name = some ent) : k.uevent.Has queue ent ∧ ent.dName = name := by
  obtain ⟨hb, -⟩ := Option.filter_eq_some_iff.1 h
  obtain ⟨d, hd, hf⟩ := Option.bind_eq_some_iff.1 hb
  exact ⟨⟨d, hd, mem_of_find?_eq_some hf⟩, by simpa using find?_some hf⟩

theorem Debounced.goto (h : Debounced r) (hx : Exclusive r.sys.abs) (hsc : r.script pid = some sc)
    (hsT : ∀ ent, r.sys.k.timer.Has queue ent → isActivation ent.dName = true →
      sc.pc.SparesTimer ent.dName → pc.SparesTimer ent.dName)
    (hsF : ∀ ent, r.sys.k.filter.Has queue ent → isTimeout ent.dName = true → sc.pc.SparesReady →
      pc.SparesReady)
    (hsE : ∀ ent, r.sys.k.uevent.Has queue ent → isTimeout ent.dName = true →
      sc.pc.SparesEvent ent.dName → pc.SparesEvent ent.dName)
    (hown : pc.Consumed → sc.pc.Consumed) (htaken : ∀ ino ∈ pc.taken, r.owner ino = r.lastMember)
    (hok : pc.Ok) : Debounced (r.goto pid sc.run pc) :=
  h.advance hx hsc rfl rfl rfl rfl (fun _ he => he) (fun _ he => he) (fun _ he => he) hsT hsF hsE
    hown htaken hok

/-- The script consumes a member event. -/
theorem Debounced.consume (h : Debounced r) (hx : Exclusive r.sys.abs)
    (hsc : r.script pid = some sc)
    {names : List String} {k : Kernel} (hT : k.timer = r.sys.k.timer)
    (hF : k.filter = r.sys.k.filter)
    (hE : ∀ ent, k.uevent.Has queue ent → r.sys.k.uevent.Has queue ent) :
    Debounced { State.goto { r with sys := { r.sys with k := k } } pid sc.run
      (.members names true) with
      lastMember := sc.run } := by
  have hself : Function.update r.script pid (some ⟨sc.run, .members names true⟩) pid = some _ :=
    Function.update_self ..
  refine ⟨fun ent he ha => ⟨(h.timer ent (hT ▸ he) ha).1, .inr ⟨pid, _, hself, trivial⟩⟩,
    fun ent he ha => ⟨(h.ready ent (hF ▸ he) ha).1, .inr ⟨pid, _, hself, trivial⟩⟩,
    fun ent he ha => ⟨(h.event ent (hE ent he) ha).1, .inr ⟨pid, _, hself, trivial⟩⟩,
      ?_, ?_, ?_, ?_⟩
  all_goals intro pid' sc' h'
  all_goals obtain ⟨rfl, rfl⟩ := h.eq_of_update hx hsc h'
  · exact fun _ => rfl
  · exact nofun
  · exact trivial
  · exact h.phase _ _ hsc

/-! ## Steps that can bring files -/

variable {l : Label}

section
variable (h : Debounced r) (hx : Exclusive r.sys.abs)
include h hx

/-- After a step of the system an activation in the queue directory is one that was there or in the
timer directory, and one in the event directory was there or has come from the queue directory while
no script was running. -/
theorem Debounced.due_of_step {s' : Sys} (hs : system.step r.sys l = some s')
    (hpub : ∀ i ent, l = .env (.publish queue i ent) → isTimeout ent.dName = false)
    (hput : ∀ pid w ent, l = .worker pid (.put ent) → r.sys.ws.find? (·.pid == pid) = some w →
      w.qName = queue → w.pc ≠ .handler) :
    (∀ ent, s'.k.filter.Has queue ent → isTimeout ent.dName = true →
      r.Due ent ScriptPc.SparesReady) ∧
      ∀ ent, s'.k.uevent.Has queue ent → isTimeout ent.dName = true →
        r.Due ent (ScriptPc.SparesEvent ent.dName) := by
  have horig : Origin queue r.sys l s' := step_origin hs
  refine ⟨fun ent he ht => ?_, fun ent he ht => ?_⟩
  · rcases horig.filter ent he with he | ⟨i, rfl⟩ | htmp | ⟨src, hsrc, hev, hino, htype⟩
    · exact h.ready ent he ht
    · rw [hpub i ent rfl] at ht
      cases ht
    · rw [htmp] at ht
      cases ht
    · obtain ⟨hreg, hd⟩ := h.timer src hsrc (by simp [isActivation, hev, ht])
      refine ⟨htype.trans hreg, (hino ▸ hd).imp_right ?_⟩
      exact fun ⟨pid, sc, hsc, hsp⟩ => ⟨pid, sc, hsc, hsp.ready⟩
  · rcases horig.uevent ent he with he | ⟨pid, c, w, rfl, hw, hq, ⟨hne, halive, he⟩ | ⟨hpc, rfl⟩⟩
    · exact h.event ent he ht
    · obtain ⟨hreg, hd⟩ := h.ready ent he ht
      refine ⟨hreg, .inl (hd.resolve_right fun ⟨pid', sc, hsc, _⟩ => ?_)⟩
      -- a script would run in a second worker of the queue
      obtain ⟨v, hv, -, hvq, hvpc⟩ := h.phase _ _ hsc
      have hwv : w = v :=
        hx.eq_of_running (mem_of_find?_eq_some hw) hv (hq.trans hvq.symm) halive (by rw [hvpc]; rfl)
      exact hne (hwv ▸ hvpc)
    · exact absurd hpc (hput pid w ent rfl hw hq)

/-- When the script is at a place that spares nothing, every activation is of the last run. -/
theorem Debounced.owner_of_due (hsc : r.script pid = some sc) {spares : ScriptPc → Prop}
    (hd : r.Due ent spares)
    (hno : ¬ spares sc.pc) : ent.dType = .reg ∧ r.owner ent.dIno = r.lastMember := by
  refine ⟨hd.1, hd.2.resolve_right fun ⟨pid', sc', hsc', hsp⟩ => hno ?_⟩
  have hpid := h.script_unique hx hsc hsc'
  rw [hpid, hsc] at hsc'
  cases hsc'
  exact hsp

/-- A new timer: its inode number is in use nowhere, so no other file changes its owner. -/
theorem Debounced.publish (hsc : r.script pid = some sc)
    {due i : Nat} {new : Dirent} (hpc : sc.pc = .release due) (hreg : new.dType = .reg)
    (hino : new.dIno ∉ usedInos r.sys.k) (hv : r.via (.env (.publishTimer queue i new)) = some r') :
    Debounced { r'.goto pid sc.run .done with
      owner := Function.update r'.owner new.dIno sc.run } := by
  obtain ⟨s', hs, rfl⟩ := Option.map_eq_some_iff.1 hv
  obtain ⟨k, hk, rfl⟩ := step_env hs
  have hrun : sc.run = r.lastMember := h.own _ _ hsc (by rw [hpc]; trivial)
  obtain ⟨ht, hf, hu⟩ : (∀ ent, k.timer.Has queue ent → r.sys.k.timer.Has queue ent ∨ ent = new) ∧
      k.filter = r.sys.k.filter ∧ k.uevent = r.sys.k.uevent := by
    obtain ⟨d, -, hk⟩ := Option.bind_eq_some_iff.1 hk
    split at hk <;> cases hk
    obtain ⟨ht, hf, hu⟩ := Kernel.notify_trees
      { r.sys.k with timer := r.sys.k.timer.modify queue (·.put i new) }
      d.ino .movedTo new.dName
    exact ⟨fun ent he => (ht ▸ he : QueueTree.Has _ queue ent).of_put.imp_right And.right, hf, hu⟩
  have hused : ∀ {ent : Dirent}, ent ∈ entries r.sys.k.timer ++ entries r.sys.k.filter ++
      entries r.sys.k.uevent → ent.dIno ≠ new.dIno := fun hin heq =>
    hino (heq ▸ mem_map_of_mem hin)
  have hdue : ∀ {ent : Dirent} {spares : ScriptPc → Prop}, r.Due ent spares → ¬ spares sc.pc →
      ent.dIno ≠ new.dIno → ent.dType = .reg ∧ Function.update r.owner new.dIno sc.run ent.dIno =
        r.lastMember := by
    intro ent spares hd hno hne
    rw [Function.update_of_ne hne]
    exact h.owner_of_due hx hsc hd hno
  refine ⟨fun ent he ha => ?_, fun ent he ha => ?_, fun ent he ha => ?_, ?_, ?_, ?_, ?_⟩
  · rcases ht ent he with he | rfl
    · have := hdue (h.timer ent he ha) (by rw [hpc]; exact id) (hused (by simp [mem_entries.2 he]))
      exact ⟨this.1, .inl this.2⟩
    · exact ⟨hreg, .inl ((Function.update_self ..).trans hrun)⟩
  · have he : r.sys.k.filter.Has queue ent := hf ▸ he
    have := hdue (h.ready ent he ha) (by rw [hpc]; exact id) (hused (by simp [mem_entries.2 he]))
    exact ⟨this.1, .inl this.2⟩
  · have he : r.sys.k.uevent.Has queue ent := hu ▸ he
    have := hdue (h.event ent he ha) (by rw [hpc]; exact id) (hused (by simp [mem_entries.2 he]))
    exact ⟨this.1, .inl this.2⟩
  all_goals intro pid' sc' h'
  all_goals obtain ⟨rfl, rfl⟩ := h.eq_of_update hx hsc h'
  · exact False.elim
  · exact nofun
  · exact trivial
  · exact h.phase _ _ hsc

/-- The script comes to its end. -/
theorem Debounced.finish (hsc : r.script pid = some sc) (hpc : sc.pc = .done)
    (hv : r.via (.worker pid .go) = some r') :
    Debounced { r' with script := Function.update r'.script pid none } := by
  obtain ⟨s', hs, rfl⟩ := Option.map_eq_some_iff.1 hv
  have hnone : ∀ {pid' sc'}, Function.update r.script pid none pid' = some sc' → False := by
    intro pid' sc' h'
    by_cases heq : pid' = pid
    · rw [heq, Function.update_self] at h'
      cases h'
    · rw [Function.update_of_ne heq] at h'
      exact heq (h.script_unique hx hsc h')
  have hdue : ∀ {ent : Dirent} {spares : ScriptPc → Prop}, r.Due ent spares → ¬ spares .done →
      State.Due { r with sys := s', script := Function.update r.script pid none } ent spares := by
    intro ent spares hd hno
    obtain ⟨hreg, howner⟩ := h.owner_of_due hx hsc hd (hpc ▸ hno)
    exact ⟨hreg, .inl howner⟩
  obtain ⟨hready, hevent⟩ := h.due_of_step hx hs nofun nofun
  refine ⟨fun ent he ha => ?_, fun ent he ha => hdue (hready ent he ha) id,
    fun ent he ha => hdue (hevent ent he ha) id, fun _ _ h' => (hnone h').elim,
    fun _ _ h' => (hnone h').elim, fun _ _ h' => (hnone h').elim, fun _ _ h' => (hnone h').elim⟩
  rcases (step_origin hs : Origin queue r.sys _ s').timer ent he with he | ⟨i, heq⟩
  · exact hdue (h.timer ent he ha) id
  · cases heq

/-- Steps of the others that do not touch the script's files -/
theorem Debounced.foreign (hl : foreign r l = true) (hv : r.via l = some r') : Debounced r' := by
  obtain ⟨s', hs, rfl⟩ := Option.map_eq_some_iff.1 hv
  have hworker : ∀ {pid c w}, l = .worker pid c → r.sys.ws.find? (·.pid == pid) = some w →
      w.qName = queue → w.pc = .handler → c = .go ∧ r.script pid = none := by
    rintro pid c w rfl hw hq hpc
    simpa [Raid.foreign, hw, hq, hpc] using hl
  obtain ⟨hready, hevent⟩ := h.due_of_step hx hs
    (by rintro i ent rfl; simpa [Raid.foreign] using hl)
    (by rintro pid w ent hput hw hq hpc; cases (hworker hput hw hq hpc).1)
  refine ⟨fun ent he ha => ?_, hready, hevent, h.own, h.taken, h.ok, fun pid sc hsc => ?_⟩
  · rcases (step_origin hs : Origin queue r.sys l s').timer ent he with he | ⟨i, rfl⟩
    · exact h.timer ent he ha
    · simp [Raid.foreign, ha] at hl
  · obtain ⟨w, hw, rfl, hq, hpc⟩ := h.phase _ _ hsc
    have hpids : (r.sys.ws.map (·.pid)).Nodup := hx.pids_nodup
    refine ⟨w, running_stays hs hpids hw (by rw [hpc]; rfl) ?_, rfl, hq, hpc⟩
    rintro c rfl
    have hfind : r.sys.ws.find? (·.pid == w.pid) = some w := by
      obtain ⟨v, k, pc, hv, -, -⟩ := step_worker hs
      rw [hv, inj_on_of_nodup_map hpids (mem_of_find?_eq_some hv) hw (by simpa using find?_some hv)]
    rw [(hworker rfl hfind hq hpc).2] at hsc
    cases hsc

end

/-! ## Every step -/

/-- When a run of the script has cancelled the timers, no activation lies in the queue directory;
and queues are registered only while their names are not in use. -/
def cancelsAll (r : State) : RaidLabel → Bool
  | .sys l => registersAlone r.sys l
  | .script pid _ =>
    match r.script pid with
    | some ⟨_, .cancel []⟩ => (entries r.sys.k.filter).all (!isTimeout ·.dName)
    | _ => true

theorem Debounced.unlink (h : Debounced r) (hx : Exclusive r.sys.abs) (hsc : r.script pid = some sc)
    (hv : r.via (.worker pid (.unlink name)) = some r')
    (hsT : ∀ n, sc.pc.SparesTimer n → pc.SparesTimer n) (hsF : sc.pc.SparesReady → pc.SparesReady)
    (hsE : ∀ n, n ≠ name → sc.pc.SparesEvent n → pc.SparesEvent n)
    (hown : pc.Consumed → sc.pc.Consumed) (htaken : ∀ ino ∈ pc.taken, r.owner ino = r.lastMember)
    (hok : pc.Ok) : Debounced (r'.goto pid sc.run pc) := by
  cases via_unlink h hx hsc hv
  exact h.advance hx hsc rfl rfl rfl rfl (fun _ he => he) (fun _ he => he)
    (fun _ he => he.of_remove.1) (fun ent _ _ => hsT ent.dName) (fun _ _ _ => hsF)
    (fun ent he _ => hsE ent.dName (he.of_remove.2 rfl)) hown htaken hok

variable {delay : Nat}

/-- Every command of the script keeps the invariant. -/
theorem scriptStep_debounced {c : ScriptChoice} (h : Debounced r)
    (hx : Exclusive r.sys.abs) (hsc : r.script pid = some sc)
    (hs : scriptStep delay r pid sc c = some r') (hok : cancelsAll r (.script pid c) = true) :
    Debounced r' := by
  obtain ⟨run, pc⟩ := sc
  have hnone : ∀ ino ∈ ([] : List Nat), r.owner ino = r.lastMember := by simp
  cases c with
  | publish i ino suffix =>
    unfold scriptStep at hs
    cases pc with
    | release due =>
      simp only at hs
      split at hs
      · cases hs
      · next hino =>
        obtain ⟨r₁, hv, rfl⟩ := Option.map_eq_some_iff.1 hs
        exact h.publish hx hsc rfl rfl hino hv
    | members | stale | cancel | schedule | timeouts | processTimeout | done => cases hs
  | go =>
    unfold scriptStep at hs
    cases pc with
    | members names has =>
      cases names with
      | cons name names =>
        simp only at hs
        split at hs
        · cases hs
          exact h.goto hx hsc (fun _ _ _ => by cases has <;> exact id)
            (fun _ _ _ => by cases has <;> exact id) (fun _ _ _ => by cases has <;> exact id)
            (by cases has <;> exact id) hnone trivial
        · obtain ⟨r₁, hv, rfl⟩ := Option.map_eq_some_iff.1 hs
          cases via_unlink h hx hsc hv
          exact h.consume hx hsc rfl rfl fun ent he => he.of_remove.1
      | nil =>
        cases has with
        | true =>
          cases hs
          refine h.goto hx hsc (fun _ _ _ => id) (fun _ _ _ => id) (fun ent he ht _ => ?_)
            id hnone trivial
          exact mem_filter.2 ⟨mem_map_of_mem (mem_entries.2 he), ht⟩
        | false =>
          cases hs
          exact h.goto hx hsc (fun _ _ _ => id) (fun _ _ _ => id) (fun _ _ _ => id) id hnone
            fun name hname => (mem_filter.1 hname).2
    | stale names =>
      cases names with
      | cons name names =>
        have hrest : ∀ n, n ≠ name → (ScriptPc.stale (name :: names)).SparesEvent n →
            (ScriptPc.stale names).SparesEvent n := fun n hne hin =>
          (mem_cons.1 hin).resolve_left hne
        simp only at hs
        split at hs
        · next habsent =>
          cases hs
          refine h.goto hx hsc (fun _ _ _ => id) (fun _ _ _ => id) (fun ent he ht => hrest _ ?_)
            id hnone trivial
          rintro rfl
          simpa [habsent] using regularEvent_isSome h he ht
        · obtain ⟨r₁, hv, rfl⟩ := Option.map_eq_some_iff.1 hs
          exact h.unlink hx hsc hv (fun _ => id) id hrest id hnone trivial
      | nil =>
        cases hs
        refine h.goto hx hsc (fun ent he ha _ => ?_) (fun _ _ _ => id)
          (fun _ _ _ hin => by cases hin) id hnone trivial
        have hreg := (h.timer ent he ha).1
        refine mem_filter.2 ⟨mem_map_of_mem (mem_filter.2 ⟨mem_entries.2 he, ?_⟩), ?_⟩
        · simp [hreg]
        · exact isTimer_of_isActivation ha
    | cancel names =>
      cases names with
      | cons name names =>
        cases hs
        have hrest : ∀ n, n ≠ name → n ∈ name :: names → n ∈ names := fun n hne hin =>
          (mem_cons.1 hin).resolve_left hne
        cases hv : r.via (.env (.unpublishTimer queue name)) with
        | none =>
          -- there is no timer directory
          refine h.goto hx hsc (fun ent he => ?_) (fun _ _ _ => id) (fun _ _ _ => id)
            id hnone trivial
          obtain ⟨d, hd, -⟩ := he
          simp [State.via, system, Ueventd.step, Kernel.env, hd] at hv
        | some r₁ =>
          obtain ⟨s', hs', rfl⟩ := Option.map_eq_some_iff.1 hv
          obtain ⟨k, hk, rfl⟩ := step_env hs'
          obtain ⟨d, -, hk⟩ := Option.bind_eq_some_iff.1 hk
          cases hk
          exact h.advance hx hsc rfl rfl rfl rfl (fun _ he => he.of_remove.1) (fun _ he => he)
            (fun _ he => he) (fun ent he _ => hrest _ (he.of_remove.2 rfl)) (fun _ _ _ => id)
            (fun _ _ _ => id) id hnone trivial
      | nil =>
        cases hs
        have hclean : ∀ ent, r.sys.k.filter.Has queue ent → isTimeout ent.dName ≠ true := by
          intro ent he ht
          simp only [cancelsAll, hsc] at hok
          simpa [ht] using all_eq_true.1 hok ent (mem_entries.2 he)
        split
        · exact h.goto hx hsc (fun _ _ _ hin => by cases hin)
            (fun ent he ht => absurd ht (hclean ent he))
            (fun _ _ _ => id) id hnone trivial
        · exact h.goto hx hsc (fun _ _ _ hin => by cases hin)
            (fun ent he ht => absurd ht (hclean ent he))
            (fun _ _ _ => id) False.elim hnone trivial
    | schedule =>
      cases hs
      exact h.goto hx hsc (fun _ _ _ => id) (fun _ _ _ => id) (fun _ _ _ => id) id hnone trivial
    | release => cases hs
    | timeouts names taken =>
      have htaken := h.taken _ _ hsc
      cases names with
      | cons name names =>
        have hnames := forall_mem_cons.1 (h.ok _ _ hsc)
        simp only at hs
        split at hs
        · cases hs
          exact h.goto hx hsc (fun _ _ _ => id) (fun _ _ _ => id) (fun _ _ _ => id) id
            htaken hnames.2
        · next ent hent =>
          obtain ⟨r₁, hv, rfl⟩ := Option.map_eq_some_iff.1 hs
          obtain ⟨he, rfl⟩ := regularEvent_spec hent
          have howner := (h.owner_of_due hx hsc (h.event ent he hnames.1) id).2
          exact h.unlink hx hsc hv (fun _ => id) id (fun _ _ => id) id
            (forall_mem_cons.2 ⟨howner, htaken⟩) hnames.2
      | nil =>
        cases hs
        split
        · exact h.goto hx hsc (fun _ _ _ => id) (fun _ _ _ => id) (fun _ _ _ => id) id hnone trivial
        · next hne =>
          exact h.goto hx hsc (fun _ _ _ => id) (fun _ _ _ => id) (fun _ _ _ => id) id htaken hne
    | processTimeout taken =>
      cases hs
      exact h.goto hx hsc (fun _ _ _ => id) (fun _ _ _ => id) (fun _ _ _ => id) id hnone trivial
    | done =>
      obtain ⟨r₁, hv, rfl⟩ := Option.map_eq_some_iff.1 hs
      exact h.finish hx hsc rfl hv

/-- A run of the script begins. -/
theorem Debounced.start (h : Debounced r) (hnone : r.script pid = none)
    (hw : r.sys.ws.any (fun w => w.pid == pid && w.qName == queue && w.pc == .handler) = true) :
    Debounced { r.goto pid (r.runs + 1) (.members (glob r.sys.k isMember) false) with
      runs := r.runs + 1 } := by
  have hold : ∀ {pid' sc'}, Function.update r.script pid
      (some ⟨r.runs + 1, .members (glob r.sys.k isMember) false⟩) pid' = some sc' →
      (pid' = pid ∧ sc' = ⟨r.runs + 1, .members (glob r.sys.k isMember) false⟩) ∨ r.script pid' =
        some sc' := by
    intro pid' sc' h'
    by_cases heq : pid' = pid
    · rw [heq, Function.update_self] at h'
      exact .inl ⟨heq, (Option.some.inj h').symm⟩
    · rw [Function.update_of_ne heq] at h'
      exact .inr h'
  have hdue : ∀ {ent : Dirent} {spares : ScriptPc → Prop}, r.Due ent spares →
      State.Due { r.goto pid (r.runs + 1) (.members (glob r.sys.k isMember) false) with
        runs := r.runs + 1 } ent spares := by
    rintro ent spares ⟨hreg, hd⟩
    refine ⟨hreg, hd.imp_right fun ⟨pid', sc', hsc', hsp⟩ => ⟨pid', sc', ?_, hsp⟩⟩
    have hne : pid' ≠ pid := by
      rintro rfl
      rw [hnone] at hsc'
      cases hsc'
    exact (Function.update_of_ne hne ..).trans hsc'
  refine ⟨fun ent he ha => hdue (h.timer ent he ha), fun ent he ha => hdue (h.ready ent he ha),
    fun ent he ha => hdue (h.event ent he ha), ?_, ?_, ?_, ?_⟩
  all_goals intro pid' sc' h'
  all_goals rcases hold h' with ⟨rfl, rfl⟩ | h'
  · exact False.elim
  · exact h.own _ _ h'
  · exact nofun
  · exact h.taken _ _ h'
  · exact trivial
  · exact h.ok _ _ h'
  · obtain ⟨w, hw, hc⟩ := any_eq_true.1 hw
    simp only [Bool.and_eq_true, beq_iff_eq] at hc
    exact ⟨w, hw, hc.1.1, hc.1.2, hc.2⟩
  · exact h.phase _ _ h'

theorem step_debounced {l : RaidLabel} (h : Debounced r) (hx : Exclusive r.sys.abs)
    (hs : step delay r l = some r') (hok : cancelsAll r l = true) : Debounced r' := by
  cases l with
  | sys l =>
    simp only [step] at hs
    split at hs
    · next hl => exact h.foreign hx hl hs
    · cases hs
  | script pid c =>
    simp only [step] at hs
    split at hs
    · next sc hsc => exact scriptStep_debounced h hx hsc hs hok
    · next hnone =>
      split at hs
      · next hw =>
        cases hs
        exact h.start hnone hw
      · cases hs

/-! ## Runs -/

theorem via_sys (h : r.via l = some r') : system.step r.sys l = some r'.sys := by
  obtain ⟨s', hs, rfl⟩ := Option.map_eq_some_iff.1 h
  exact hs

theorem registersAlone_of_not_daemon {s : Sys} (hl : ∀ c, l ≠ .daemon c) :
    registersAlone s l = true := by
  unfold registersAlone
  cases l with
  | daemon c => exact absurd rfl (hl c)
  | env a => rfl
  | worker pid c =>
    split
    · next hact =>
      simp only [Sys.act, Option.bind_eq_some_iff] at hact
      obtain ⟨_, -, _, -, hact⟩ := hact
      split at hact <;> cases hact
    · rfl

/-- A command of the script is a step of a worker or of another process, or none of the system. -/
theorem scriptStep_sys {c : ScriptChoice} (h : scriptStep delay r pid sc c = some r') :
    r'.sys = r.sys ∨ ∃ l, system.step r.sys l = some r'.sys ∧ ∀ c, l ≠ .daemon c := by
  have hvia : ∀ {l : Label} {f : State → State}, (r.via l).map f = some r' →
      (∀ r, (f r).sys = r.sys) → (∀ c, l ≠ .daemon c) →
        r'.sys = r.sys ∨ ∃ l, system.step r.sys l = some r'.sys ∧ ∀ c, l ≠ .daemon c := by
    intro l f h hf hl
    obtain ⟨r₁, hv, rfl⟩ := Option.map_eq_some_iff.1 h
    exact .inr ⟨l, (hf r₁).symm ▸ via_sys hv, hl⟩
  obtain ⟨run, pc⟩ := sc
  cases c with
  | publish i ino suffix =>
    simp only [scriptStep] at h
    split at h
    · split at h
      · cases h
      · exact hvia h (fun _ => rfl) nofun
    · cases h
  | go =>
    unfold scriptStep at h
    cases pc with
    | members names has =>
      cases names with
      | nil => cases has <;> cases h <;> exact .inl rfl
      | cons name names =>
        simp only at h
        split at h
        · cases h
          exact .inl rfl
        · exact hvia h (fun _ => rfl) nofun
    | stale names =>
      cases names with
      | nil =>
        cases h
        exact .inl rfl
      | cons name names =>
        simp only at h
        split at h
        · cases h
          exact .inl rfl
        · exact hvia h (fun _ => rfl) nofun
    | cancel names =>
      cases names with
      | nil =>
        cases h
        exact .inl rfl
      | cons name names =>
        cases h
        cases hv : r.via (.env (.unpublishTimer queue name)) with
        | none => exact .inl rfl
        | some r₁ =>
          have hs : system.step r.sys (.env (.unpublishTimer queue name)) = some r₁.sys :=
            via_sys hv
          exact .inr ⟨_, hs, nofun⟩
    | timeouts names taken =>
      cases names with
      | nil =>
        cases h
        exact .inl rfl
      | cons name names =>
        simp only at h
        split at h
        · cases h
          exact .inl rfl
        · exact hvia h (fun _ => rfl) nofun
    | schedule | processTimeout =>
      cases h
      exact .inl rfl
    | release => cases h
    | done => exact hvia h (fun _ => rfl) nofun

theorem exclusive_of_raid (h : (raid delay).ReachBy (cancelsAll · ·) r) : Exclusive r.sys.abs := by
  have hsys : system.ReachBy (registersAlone · ·) r.sys := h.map State.sys (fun r hi => hi.1) ?_
  · exact exclusive_of_reach hsys
  intro r l r' _ hok hs
  cases l with
  | sys l =>
    simp only [raid, step] at hs
    split at hs
    · exact .inr ⟨l, hok, via_sys hs⟩
    · cases hs
  | script pid c =>
    simp only [raid, step] at hs
    split at hs
    · rcases scriptStep_sys hs with heq | ⟨l, hl, hdaemon⟩
      · exact .inl heq
      · exact .inr ⟨l, registersAlone_of_not_daemon hdaemon, hl⟩
    · split at hs <;> cases hs
      exact .inl rfl

theorem debounced_of_reach (h : (raid delay).ReachBy (cancelsAll · ·) r) : Debounced r := by
  refine h.invariant (P := Debounced) ?_ fun r l r' hr hP hok hs =>
    step_debounced hP (exclusive_of_raid hr) hs hok
  rintro r ⟨-, hscript, -, -, htimer, hrest⟩
  have hnone : ∀ {pid sc}, r.script pid = some sc → False := by simp [hscript]
  refine ⟨fun ent he ha => ?_, fun ent he ha => ?_, fun ent he ha => ?_,
    fun _ _ h' => (hnone h').elim, fun _ _ h' => (hnone h').elim, fun _ _ h' => (hnone h').elim,
    fun _ _ h' => (hnone h').elim⟩
  · rw [htimer ent (mem_entries.2 he)] at ha
    cases ha
  · rw [hrest ent (mem_append_left _ (mem_entries.2 he))] at ha
    cases ha
  · rw [hrest ent (mem_append_right _ (mem_entries.2 he))] at ha
    cases ha

/-- In a run in which every cancelling leaves no activation in the queue directory, a run of the
script that has started `process_timeout` acts on activations, each scheduled by the last run that
consumed a member event. -/
theorem timeout_of_lastMember {delay run : Nat} {taken : List Nat}
    (h : (raid delay).ReachBy (cancelsAll · ·) r)
    (hs : r.script pid = some ⟨run, .processTimeout taken⟩) :
    taken ≠ [] ∧ ∀ ino ∈ taken, r.owner ino = r.lastMember :=
  ⟨(debounced_of_reach h).ok _ _ hs, (debounced_of_reach h).taken _ _ hs⟩

end

/-! ## Two runs -/

namespace Fixture

/-- The queue's directories exist and are empty. -/
def kernel : Kernel :=
  { Ueventd.Fixture.kernel with
    filter := ⟨2, [(queue, ⟨4, []⟩)], []⟩, timer := ⟨3, [(queue, ⟨5, []⟩)], []⟩ }

def start : State :=
  ⟨⟨kernel, .start, []⟩, fun _ => none, 0, 0, fun _ => 0⟩

theorem init_start (delay : Nat) : (raid delay).init start :=
  ⟨⟨⟨rfl, rfl, rfl, rfl, by decide, by decide, by decide, by decide⟩, rfl, rfl⟩, rfl,
    rfl, rfl, nofun, nofun⟩

def daemon (n : Nat) : List RaidLabel :=
  List.replicate n (.sys (.daemon .go))

def worker (pid n : Nat) : List RaidLabel :=
  List.replicate n (.sys (.worker pid .go))

def script (pid n : Nat) : List RaidLabel :=
  List.replicate n (.script pid .go)

/-- A member event starts the worker `pid`, which moves it to the event directory. -/
def member (pid ino : Nat) : List RaidLabel :=
  [.sys (.env (.publish queue 0 (Ueventd.Fixture.file ino "md-raid-member.event"))),
    .sys (.daemon (.ready [.inotify])), .sys (.daemon .go), .sys (.daemon (.read 1))] ++
    daemon 4 ++ [.sys (.daemon (.pid pid))] ++ daemon 4 ++ worker pid 6

/-- The script consumes the member event and schedules the timer `ino`; the worker ends. -/
def activate (pid ino : Nat) : List RaidLabel :=
  script pid 6 ++ [.script pid (.publish 0 ino "timer")] ++ script pid 1 ++ worker pid 1

/-- The daemon starts, and a member event schedules the timer 20 for the time 5. -/
def scheduled : List RaidLabel :=
  daemon 18 ++ member 100 10 ++ activate 100 20 ++
    [.sys (.daemon (.ready [.inotify, .signal])), .sys (.daemon .go), .sys (.daemon (.read 1))] ++
    daemon 3 ++ [.sys (.daemon (.pid 100))] ++ daemon 14

/-- The timer expires and the daemon moves it to the queue directory. -/
def expire (seconds : Nat) : List RaidLabel :=
  [.sys (.env (.tick seconds)), .sys (.daemon (.ready [.timer]))] ++ daemon 12

/-- The timer 20 expires undisturbed, and a run of the script acts on it. -/
def quietRun : List RaidLabel :=
  scheduled ++ expire 5 ++ daemon 1 ++ [.sys (.daemon (.pid 102))] ++ daemon 4 ++
    worker 102 7 ++ script 102 4

/-- A second member event arrives; the timer 20 expires when the worker has read the queue directory
and before the script cancels. The next run acts on it. -/
def racingRun : List RaidLabel :=
  scheduled ++ [.sys (.env (.tick 4))] ++ member 101 11 ++ expire 1 ++ daemon 6 ++
    activate 101 21 ++
    [.sys (.daemon (.ready [.inotify, .signal])), .sys (.daemon .go), .sys (.daemon (.read 2))] ++
    daemon 4 ++ [.sys (.daemon (.pid 101))] ++ daemon 9 ++ [.sys (.daemon (.pid 102))] ++
    worker 102 7 ++ script 102 4

/-- The activations that the script of the worker `pid` acts on in `process_timeout`. -/
def acting (r : State) (pid : Nat) : Option (List Nat) :=
  match r.script pid with
  | some ⟨_, .processTimeout taken⟩ => some taken
  | _ => none

theorem acting_spec {r : State} {pid : Nat} {taken : List Nat} (h : acting r pid = some taken) :
    ∃ run, r.script pid = some ⟨run, .processTimeout taken⟩ := by
  unfold acting at h
  split at h
  · next run t hs =>
    cases h
    exact ⟨run, hs⟩
  · cases h

end Fixture

theorem timeout_of_lastMember_quietRun : ∃ (r : State) (run : Nat),
    (raid 5).ReachBy (cancelsAll · ·) r ∧ r.script 102 = some ⟨run, .processTimeout [20]⟩ ∧
      [20] ≠ [] ∧ ∀ ino ∈ [20], r.owner ino = r.lastMember := by
  obtain ⟨r, hr, hc⟩ := Lts.reachBy_of_exec (Fixture.init_start 5) cancelsAll Fixture.quietRun
    (fun r => Fixture.acting r 102 == some [20]) (by decide +kernel)
  obtain ⟨run, hs⟩ := Fixture.acting_spec (beq_iff_eq.1 hc)
  exact ⟨r, run, hr, hs, timeout_of_lastMember hr hs⟩

/-- An activation that reaches the queue directory between the worker's reading and the script's
cancelling is acted on although a later run has consumed a member event. -/
theorem not_timeout_of_lastMember : ¬ ∀ delay, 0 < delay → ∀ r, (raid delay).Reach r →
    ∀ pid run taken, r.script pid = some ⟨run, .processTimeout taken⟩ → ∀ ino ∈ taken,
      r.owner ino = r.lastMember := by
  intro hall
  obtain ⟨r, hr, hc⟩ := Lts.reach_of_exec (Fixture.init_start 5) Fixture.racingRun
    (fun r => Fixture.acting r 102 == some [20] && r.owner 20 != r.lastMember) (by decide +kernel)
  simp only [Bool.and_eq_true, beq_iff_eq, bne_iff_ne] at hc
  obtain ⟨run, hs⟩ := Fixture.acting_spec hc.1
  exact hc.2 (hall 5 (by decide) r hr 102 run [20] hs 20 (mem_singleton_self _))

end MakeInitrd.Ueventd.Raid
