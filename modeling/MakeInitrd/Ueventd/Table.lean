import MakeInitrd.Ueventd.System

/-!
# The watch table as a machine of its own

Seven actions change the watch list, its counter, the pauses and the set of children: every other
step of the system leaves them alone. `Abs` is that part of a state and `Sys.act` says which action
a step takes. `step_abs` is the simulation, so an invariant of the table needs one case per action
(`abs_invariant`) and no look at the tasks.
-/

namespace MakeInitrd.Ueventd

open List

/-- A child the daemon has not reaped. -/
structure Child where
  pid : Nat
  qName : String
  dead : Bool
deriving DecidableEq

def Worker.child (w : Worker) : Child :=
  ⟨w.pid, w.qName, w.pc.dead⟩

structure Abs where
  tab : Table
  ch : List Child

/-- What a step can do to the table. -/
inductive Act
  | mark (sel : Watch → Bool)
  | register (name : String) (wfd ino : Nat) (kind : WatchKind) (isEmpty : Bool)
  | unwatch (ino : Nat)
  | applyPause (ents : List Dirent)
  | reap (pid : Nat)
  /-- `pid` is `0` where `fork` failed. -/
  | dispatch (i : Nat) (e : Watch) (pid : Nat)
  | died (pid : Nat)

namespace Abs

def apply (a : Abs) : Act → Abs
  | .mark sel => { a with tab := a.tab.markQueueDirty sel }
  | .register name wfd ino kind isEmpty =>
    { a with tab := a.tab.register name wfd ino kind isEmpty }
  | .unwatch ino => { a with tab := a.tab.unwatchPath ino }
  | .applyPause ents => { a with tab := a.tab.applyPause ents }
  | .reap pid => ⟨a.tab.reap pid, a.ch.filter (·.pid != pid)⟩
  | .dispatch i e pid =>
    ⟨a.tab.dispatch i e pid, if pid = 0 then a.ch else ⟨pid, e.qName, false⟩ :: a.ch⟩
  | .died pid => { a with ch := a.ch.modifyFirst (·.pid == pid) ({ · with dead := true }) }

/-- What the code has made sure of when it takes the action. -/
def Enabled (a : Abs) : Act → Prop
  | .mark sel => ∀ p, a.tab.watchList.find? sel = some p → p.kind = .queueDir
  | .reap pid => ∃ c ∈ a.ch, c.pid = pid ∧ c.dead = true
  | .dispatch i e pid =>
    a.tab.watchList[i]? = some e ∧ e.ready = true ∧ a.tab.dirtyQueues ≠ 0 ∧
      (pid ≠ 0 → ∀ c ∈ a.ch, c.pid ≠ pid)
  | _ => True

end Abs

namespace Sys

def abs (s : Sys) : Abs :=
  ⟨s.d.tab, s.ws.map Worker.child⟩

/-- What one turn of the inotify loop does to the table. -/
def eventAct (s : Sys) (ev : InotifyEvent) : Option Act :=
  match s.d.tab.watchList.find? (·.qWatchfd == ev.wd) with
  | none => none
  | some p =>
    if ev.kind = .deleteSelf then some (.unwatch p.qIno)
    else if p.kind = .queueDir then some (.mark (·.qWatchfd == ev.wd))
    else none

/-- What one turn of the dispatch loop does to the table. -/
def dispatchAct (s : Sys) (i : Nat) (c : Choice) : Option Act :=
  match s.d.tab.watchList[i]? with
  | none => none
  | some e =>
    if e.ready ∧ s.d.tab.dirtyQueues ≠ 0 then
      match c with
      | .fail => some (.dispatch i e 0)
      | .pid pid => some (.dispatch i e pid)
      | _ => none
    else none

/-- What the next piece of the daemon's code does to the table. -/
def taskAct (s : Sys) (c : Choice) : Task → Option Act
  | .event ev => s.eventAct ev
  | .readPipe => s.k.pipe.head?.map fun value => .mark (isWatchOf value)
  | .reap =>
    match c with
    | .pid pid => some (.reap pid)
    | _ => none
  | .watchAdd base name wfd kind =>
    (s.k.stat base name).map fun ino =>
      .register name wfd ino kind ((s.k.opendir base name).all emptyDirectory)
  | .applyPause => some (.applyPause s.k.pause.readdir)
  | .renameTimer queue name => (renameTimer s.k queue name).map fun _ => .mark (isQueueWatch queue)
  | .dispatch i => s.dispatchAct i c
  | _ => none

/-- The action that a step takes on the table, if any. -/
def act (s : Sys) : Label → Option Act
  | .daemon c => s.d.todo.head?.bind (s.taskAct c)
  | .worker pid c =>
    (s.ws.find? (·.pid == pid)).bind fun w => (workerStep s.k w c).bind fun r =>
      if r.2.dead then some (.died pid) else none
  | .env _ => none

end Sys

/-! ## The fields an action does not assign

`g` reads a watch; an action that assigns nothing `g` reads keeps the list of what `g` reads. -/

/-- Two lists of watches with the same list of what `P` says of them. -/
theorem Watch.forall_of_map {P : Watch → Prop} {l l' : List Watch} (hmap : l'.map P = l.map P)
    (h : ∀ w ∈ l, P w) : ∀ w ∈ l', P w := by
  intro w hw
  have hin : P w ∈ l.map P := hmap ▸ mem_map_of_mem hw
  obtain ⟨v, hv, heq⟩ := mem_map.1 hin
  exact heq ▸ h v hv

namespace Table

variable {α : Type*} {t : Table} {g : Watch → α}

theorem map_markQueueDirty {sel : Watch → Bool} (hg : ∀ w, g { w with dirty := true } = g w) :
    (t.markQueueDirty sel).watchList.map g = t.watchList.map g := by
  unfold markQueueDirty
  split
  · rfl
  · split
    · rfl
    · exact map_modifyFirst hg _

theorem map_reap (pid : Nat) (hg : ∀ w, g { w with qPid := 0 } = g w) :
    (t.reap pid).watchList.map g = t.watchList.map g := by
  simp only [reap, map_map]
  refine map_congr_left fun w _ => ?_
  simp only [Function.comp_apply]
  split
  · exact hg w
  · rfl

theorem map_dispatch {i : Nat} {e : Watch} {pid : Nat} (hi : t.watchList[i]? = some e)
    (hg : g { e with dirty := false, qPid := pid } = g e) :
    (t.dispatch i e pid).watchList.map g = t.watchList.map g := by
  obtain ⟨hlt, rfl⟩ := List.getElem?_eq_some_iff.1 hi
  rw [dispatch, map_set, hg, ← map_set, set_getElem_self]

theorem map_pauseLoop (hg : ∀ w b, g { w with paused := b } = g w) :
    ∀ (ents : List Dirent) (l : List Watch), (pauseLoop ents l).2.map g = l.map g
  | [], _ => rfl
  | ent :: ents, l => by
    have hmap : (l.map (pauseWatch ent)).map g = l.map g := by
      rw [map_map]
      refine map_congr_left fun w _ => ?_
      simp only [Function.comp_apply, pauseWatch]
      split
      · exact hg w true
      · rfl
    rw [pauseLoop]
    split
    · exact map_pauseLoop hg ents l
    · split
      · exact hmap
      · rw [map_pauseLoop hg ents, hmap]

theorem map_applyPause (ents : List Dirent) (hg : ∀ w b, g { w with paused := b } = g w) :
    (t.applyPause ents).watchList.map g = t.watchList.map g := by
  simp only [applyPause, map_pauseLoop hg, map_map]
  exact map_congr_left fun w _ => hg w false

theorem unwatchPath_sublist {ino : Nat} : (t.unwatchPath ino).watchList.Sublist t.watchList :=
  eraseP_sublist

end Table

/-! ## The simulation -/

section
variable {s s' : Sys} {c : Choice} {l : Label}

/-- A step keeps the table, or it applies one action that its code has enabled. -/
def Simulated (s s' : Sys) (a : Option Act) : Prop :=
  (a = none ∧ s'.abs = s.abs) ∨ ∃ act, a = some act ∧ s.abs.Enabled act ∧ s'.abs = s.abs.apply act

/-- An inotify event is one action of the table, or none. -/
theorem processEvent_abs (s : Sys) (ev : InotifyEvent) :
    Simulated s (processEvent s ev) (s.eventAct ev) := by
  unfold processEvent Sys.eventAct
  cases hp : s.d.tab.watchList.find? (·.qWatchfd == ev.wd) with
  | none => exact .inl ⟨rfl, rfl⟩
  | some p =>
    simp only
    split
    · -- the watch `p` has its own inode number, so `unwatch_path` finds one to drop
      cases he : s.d.tab.watchList.find? (·.qIno == p.qIno) with
      | none =>
        have := find?_eq_none.1 he p (mem_of_find?_eq_some hp)
        simp at this
      | some e => exact .inr ⟨_, rfl, trivial, rfl⟩
    · cases hk : p.kind with
      | queueDir =>
        refine .inr ⟨.mark _, rfl, fun q hq => ?_, rfl⟩
        have : some p = some q := hp.symm.trans hq
        cases this
        exact hk
      | rootDir | timerRoot => refine .inl ⟨rfl, ?_⟩; dsimp only; split <;> rfl
      | pauseDir | timerDir => exact .inl ⟨rfl, rfl⟩

/-- A round of the dispatch loop is one action, or none. -/
theorem dispatchWatch_abs {i : Nat} {e : Watch} (hi : s.d.tab.watchList[i]? = some e)
    (h : dispatchWatch s i e c = some s') : Simulated s s' (s.dispatchAct i c) := by
  unfold Sys.dispatchAct
  unfold dispatchWatch at h
  simp only [hi]
  split at h
  · next hr =>
    cases h
    exact .inl ⟨by simp_all, rfl⟩
  · next hr =>
    simp only [Bool.not_eq_true', Bool.not_eq_false] at hr
    split at h
    · next hd => cases h; exact .inl ⟨by simp [hd], rfl⟩
    · next hd =>
      rw [if_pos ⟨hr, hd⟩]
      cases c with
      | fail =>
        cases h
        exact .inr ⟨_, rfl, ⟨hi, hr, hd, fun h => absurd rfl h⟩, rfl⟩
      | pid pid =>
        simp only at h
        split at h
        · next hpid =>
          cases h
          refine .inr ⟨_, rfl, ⟨hi, hr, hd, fun _ ch hch => ?_⟩, ?_⟩
          · obtain ⟨w, hw, rfl⟩ := mem_map.1 hch
            intro heq
            exact hpid.2 (heq ▸ mem_map_of_mem hw)
          · simp [Sys.abs, Sys.push, Abs.apply, hpid.1, Worker.child, WorkerPc.dead]
        · cases h
      | go | ready | read | ino => cases h

/-- Every task of the daemon is one action of the table, or none. -/
theorem runTask_abs {t : Task} (h : runTask s c t = some s') : Simulated s s' (s.taskAct c t) := by
  cases t with
  | event ev =>
    cases h
    exact processEvent_abs s ev
  | dispatch i =>
    simp only [runTask] at h
    cases hi : s.d.tab.watchList[i]? with
    | none =>
      rw [hi] at h
      cases h
      exact .inl ⟨by simp [Sys.taskAct, Sys.dispatchAct, hi], rfl⟩
    | some e =>
      rw [hi] at h
      exact dispatchWatch_abs hi h
  | readPipe =>
    simp only [runTask] at h
    cases hk : s.k.pipe with
    | nil =>
      rw [hk] at h
      cases h
      exact .inl ⟨by simp [Sys.taskAct, hk], rfl⟩
    | cons value rest =>
      rw [hk] at h
      cases h
      refine .inr ⟨.mark (isWatchOf value), by simp [Sys.taskAct, hk], fun p hp => ?_, rfl⟩
      have := find?_some hp
      simp only [isWatchOf, Bool.and_eq_true, beq_iff_eq] at this
      exact this.1
  | reap =>
    simp only [runTask] at h
    cases c with
    | go => simp only at h; split at h <;> cases h; exact .inl ⟨rfl, rfl⟩
    | fail => cases h; exact .inl ⟨rfl, rfl⟩
    | pid pid =>
      simp only at h
      split at h
      · next hany =>
        cases h
        obtain ⟨w, hw, hd⟩ := any_eq_true.1 hany
        simp only [Bool.and_eq_true, beq_iff_eq] at hd
        refine .inr ⟨.reap pid, rfl, ⟨w.child, mem_map_of_mem hw, hd⟩, ?_⟩
        simp [Sys.abs, Sys.push, Abs.apply, filter_map, Function.comp_def, Worker.child]
      · cases h
    | ready | read | ino => cases h
  | watchAdd base name wfd kind =>
    simp only [runTask] at h
    cases hs : s.k.stat base name with
    | none =>
      rw [hs] at h
      cases h
      exact .inl ⟨by simp [Sys.taskAct, hs], rfl⟩
    | some ino =>
      rw [hs] at h
      cases h
      exact .inr ⟨.register name wfd ino kind _, by simp [Sys.taskAct, hs], trivial, rfl⟩
  | applyPause =>
    cases h
    exact .inr ⟨_, rfl, trivial, rfl⟩
  | renameTimer queue name =>
    simp only [runTask] at h
    cases hk : renameTimer s.k queue name with
    | none =>
      rw [hk] at h
      cases h
      exact .inl ⟨by simp [Sys.taskAct, hk], rfl⟩
    | some k =>
      rw [hk] at h
      cases h
      refine .inr ⟨.mark (isQueueWatch queue), by simp [Sys.taskAct, hk], fun p hp => ?_, rfl⟩
      have := find?_some hp
      simp only [isQueueWatch, Bool.and_eq_true, beq_iff_eq] at this
      exact this.1
  | handle fd =>
    refine .inl ⟨rfl, ?_⟩
    cases fd with
    | inotify | pipe => cases h; rfl
    | signal =>
      simp only [runTask] at h
      split at h
      · cases h; rfl
      · split at h <;> cases h <;> rfl
    | timer => simp only [runTask] at h; split at h <;> cases h <;> rfl
  | readInotify | watchPath | watchQueues | watchTimerQueues | checkTimer
  | updateTimerfd | timerQueue | timerEntry | moveTimer | ensureQueueDir | ensureTmp | setTimer =>
    -- no branch of these assigns the table or the children
    refine .inl ⟨rfl, ?_⟩
    simp only [runTask, timerEntry] at h
    (repeat' split at h) <;> cases h <;> rfl

theorem workerStep_alive {k k' : Kernel} {w : Worker} {c : WorkerChoice} {pc : WorkerPc}
    (h : workerStep k w c = some (k', pc)) : w.pc.dead = false := by
  unfold workerStep at h
  cases hpc : w.pc with
  | exited | killed => cases c <;> simp [hpc, WorkerPc.dead] at h
  | start | moving | check | handler | recheck | signal => rfl

theorem worker_abs {pid : Nat} {c : WorkerChoice} (h : step s (.worker pid c) = some s') :
    Simulated s s' (s.act (.worker pid c)) := by
  obtain ⟨w, k, pc, hw, hr, rfl⟩ := step_worker h
  cases hd : pc.dead with
  | true =>
    refine .inr ⟨.died pid, by simp [Sys.act, hw, hr, hd], trivial, ?_⟩
    simp only [Sys.abs, Sys.setWorker, Abs.apply]
    congr 1
    apply map_modifyFirst_comm
    · intro w; rfl
    · intro w; simp only [Worker.child, hd]
  | false =>
    refine .inl ⟨by simp [Sys.act, hw, hr, hd], ?_⟩
    simp only [Sys.abs, Sys.setWorker]
    congr 1
    refine map_modifyFirst_of_find hw ?_
    simp [Worker.child, hd, workerStep_alive hr]

/-- **The simulation.** A step of the system keeps the table or applies the action `Sys.act` names,
which is enabled. -/
theorem step_abs (h : system.step s l = some s') : Simulated s s' (s.act l) := by
  cases l with
  | worker pid c => exact worker_abs h
  | env a =>
    obtain ⟨k, -, rfl⟩ := step_env h
    exact .inl ⟨rfl, rfl⟩
  | daemon c =>
    obtain ⟨-, ⟨fds, ht, rfl⟩ | ⟨t, rest, ht, h⟩⟩ := daemonStep_cases h
    · exact .inl ⟨by simp [Sys.act, ht], rfl⟩
    · have hsim := runTask_abs h
      simp only [Sys.act, ht, head?_cons, Option.bind_some]
      exact hsim

theorem Abs.mem_apply_ch {a : Abs} {act : Act} {c : Child} (hc : c ∈ (a.apply act).ch) :
    (∃ c' ∈ a.ch, c'.pid = c.pid ∧ c'.qName = c.qName ∧ (c'.dead = true → c.dead = true)) ∨
      ∃ i e, act = .dispatch i e c.pid ∧ c.pid ≠ 0 ∧ c.qName = e.qName := by
  cases act with
  | mark | register | unwatch | applyPause => exact .inl ⟨c, hc, rfl, rfl, id⟩
  | reap pid => exact .inl ⟨c, (mem_filter.1 hc).1, rfl, rfl, id⟩
  | died pid =>
    rcases mem_modifyFirst hc with hc | ⟨c', hc', -, rfl⟩
    · exact .inl ⟨c, hc, rfl, rfl, id⟩
    · exact .inl ⟨c', hc', rfl, rfl, fun _ => rfl⟩
  | dispatch i e pid =>
    simp only [Abs.apply] at hc
    split at hc
    · exact .inl ⟨c, hc, rfl, rfl, id⟩
    · next hpid =>
      rcases mem_cons.1 hc with rfl | hc
      · exact .inr ⟨i, e, rfl, hpid, rfl⟩
      · exact .inl ⟨c, hc, rfl, rfl, id⟩

theorem step_started (h : system.step s l = some s') {w : Worker} (hw : w ∈ s'.ws)
    (hnew : ∀ v ∈ s.ws, v.pid ≠ w.pid) :
    ∃ e ∈ s.d.tab.watchList, e.ready = true ∧ e.qName = w.qName := by
  have hc : w.child ∈ s'.abs.ch := mem_map_of_mem hw
  have hold : ¬ ∃ c' ∈ s.abs.ch, c'.pid = w.child.pid := by
    rintro ⟨c', hc', hpid⟩
    obtain ⟨v, hv, rfl⟩ := mem_map.1 hc'
    exact hnew v hv hpid
  rcases step_abs h with ⟨-, heq⟩ | ⟨act, -, hen, heq⟩
  · exact absurd ⟨_, heq ▸ hc, rfl⟩ hold
  · rcases Abs.mem_apply_ch (heq ▸ hc) with ⟨c', hc', hpid, -⟩ | ⟨i, e, rfl, -, hname⟩
    · exact absurd ⟨c', hc', hpid⟩ hold
    · exact ⟨e, mem_of_getElem? hen.1, hen.2.1, hname.symm⟩

/-- A piece of the daemon's code reaps a dead worker, starts one or leaves the workers alone. -/
theorem runTask_ws {t : Task} (h : runTask s c t = some s') : s'.ws = s.ws ∨
    (∃ w ∈ s.ws, w.pc.dead = true ∧ s'.ws = s.ws.filter (·.pid != w.pid)) ∨
      ∃ w, w.pid ∉ s.ws.map (·.pid) ∧ s'.ws = w :: s.ws := by
  cases t with
  | reap =>
    simp only [runTask] at h
    cases c with
    | pid pid =>
      simp only at h
      split at h
      · next hany =>
        cases h
        obtain ⟨w, hw, hd⟩ := any_eq_true.1 hany
        simp only [Bool.and_eq_true, beq_iff_eq] at hd
        exact .inr (.inl ⟨w, hw, hd.2, by rw [hd.1]; rfl⟩)
      · cases h
    | go => simp only at h; split at h <;> cases h; exact .inl rfl
    | fail => cases h; exact .inl rfl
    | ready | read | ino => cases h
  | dispatch i =>
    simp only [runTask] at h
    split at h
    · cases h
      exact .inl rfl
    · unfold dispatchWatch at h
      split at h
      · cases h
        exact .inl rfl
      · split at h
        · cases h
          exact .inl rfl
        · split at h
          · cases h
            exact .inl rfl
          · split at h
            · next hpid =>
              cases h
              exact .inr (.inr ⟨_, hpid.2, rfl⟩)
            · cases h
          · cases h
  | event ev =>
    cases h
    refine .inl ?_
    unfold processEvent
    split
    · rfl
    · split
      · split <;> rfl
      · split
        · split <;> rfl
        · dsimp only
          split <;> rfl
        all_goals rfl
  | handle fd =>
    cases fd <;> simp only [runTask] at h <;> (repeat' split at h) <;> cases h <;> exact .inl rfl
  | readInotify | readPipe | watchPath | watchAdd | watchQueues | watchTimerQueues | applyPause
  | checkTimer | updateTimerfd | timerQueue | timerEntry | moveTimer | ensureQueueDir | ensureTmp
  | renameTimer | setTimer =>
    simp only [runTask, timerEntry] at h
    (repeat' split at h) <;> cases h <;> exact .inl rfl

/-- A worker that runs stays until it takes a step. -/
theorem running_stays (h : system.step s l = some s')
    (hpids : (s.ws.map (·.pid)).Nodup) {w : Worker}
    (hw : w ∈ s.ws) (halive : w.pc.dead = false) (hl : ∀ c, l ≠ .worker w.pid c) : w ∈ s'.ws := by
  cases l with
  | env a =>
    obtain ⟨k, -, rfl⟩ := step_env h
    exact hw
  | worker pid c =>
    obtain ⟨v, k, pc, hv, -, rfl⟩ := step_worker h
    refine (mem_modifyFirst_of_find hv hw).resolve_left ?_
    rintro rfl
    have : w.pid = pid := by simpa using find?_some hv
    exact hl c (by rw [this])
  | daemon c =>
    obtain ⟨-, ⟨fds, -, rfl⟩ | ⟨t, rest, -, h⟩⟩ := daemonStep_cases h
    · exact hw
    · rcases runTask_ws h with heq | ⟨v, hv, hd, heq⟩ | ⟨v, -, heq⟩
      · rw [heq]
        exact hw
      · rw [heq]
        refine mem_filter.2 ⟨hw, bne_iff_ne.2 fun hpid => ?_⟩
        rw [inj_on_of_nodup_map hpids hw hv hpid, hd] at halive
        cases halive
      · rw [heq]
        exact mem_cons_of_mem _ hw

/-- The table's induction rule: a predicate of the table holds in every state of a run if it holds
at the start and every action that an allowed step takes keeps it. -/
theorem abs_invariant {ok : Sys → Label → Prop} {P : Abs → Prop} (h : system.ReachBy ok s)
    (hstart : P ⟨.start, []⟩)
    (hact : ∀ s l a, ok s l → P s.abs → s.act l = some a → s.abs.Enabled a → P (s.abs.apply a)) :
    P s.abs := by
  refine h.invariant (P := fun s => P s.abs) ?_ ?_
  · rintro s ⟨-, hd, hw⟩
    simpa [Sys.abs, hd, hw, Daemon.start] using hstart
  · intro s l s' _ hP hok hs
    rcases step_abs hs with ⟨-, heq⟩ | ⟨a, ha, hen, heq⟩
    · exact heq ▸ hP
    · exact heq ▸ hact s l a hok hP ha hen

/-- The table alone: it takes the actions in any order. -/
def table : Lts Abs Act where
  init a := a = ⟨.start, []⟩
  step a act := some (a.apply act)

/-- Every run of the system is a run of the table alone that only takes enabled actions. -/
theorem system_refines_table (s : Sys) (h : system.Reach s) : table.ReachBy Abs.Enabled s.abs := by
  refine h.map Sys.abs ?_ fun s l s' _ _ hs => ?_
  · rintro s ⟨-, hd, hws⟩
    simp [table, Sys.abs, hd, hws, Daemon.start]
  · rcases step_abs hs with ⟨-, heq⟩ | ⟨act, -, henabled, heq⟩
    · exact .inl heq
    · exact .inr ⟨act, henabled, congrArg some heq.symm⟩

/-- A queue is watched and gets a file: the table has registered it and marked it dirty. -/
theorem system_refines_table_dirtyRun : ∃ s, system.Reach s ∧ s.d.tab.dirtyQueues = 1 ∧
    s.d.tab.watchList.any (·.dirty) = true ∧ table.ReachBy Abs.Enabled s.abs := by
  obtain ⟨s, hr, hc⟩ := Lts.reach_of_exec Fixture.init_start Fixture.dirtyRun
    (fun s => s.d.tab.dirtyQueues == 1 && s.d.tab.watchList.any (·.dirty)) (by decide)
  simp only [Bool.and_eq_true, beq_iff_eq] at hc
  exact ⟨s, hr, hc.1, hc.2, system_refines_table s hr⟩

end

end MakeInitrd.Ueventd
