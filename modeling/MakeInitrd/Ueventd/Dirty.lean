import MakeInitrd.Ueventd.Table

/-!
# The counter of dirty queues

`Table.slack` is how far `dirty_queues` is ahead of the flags it counts: every action on the table
keeps it but `unwatch_path`, which frees a watch without looking at its flag (`slack_unwatch`).
Hence the counter never falls behind (`count_le_dirtyQueues`) and the fatal branch of the dispatch
loop is dead code, while a removed dirty queue leaves the counter positive for good
(`not_dirtyQueues_pos`).
-/

namespace MakeInitrd.Ueventd

open List

/-- A queue watch that is flagged `F_DIRTY`. -/
def Watch.dirtyQueue (w : Watch) : Bool :=
  w.kind == .queueDir && w.dirty

namespace Table

/-- The number of queue watches flagged `F_DIRTY`. -/
def dirtyCount (t : Table) : Nat :=
  t.watchList.countP Watch.dirtyQueue

/-- How far `dirty_queues` is ahead of the flags. -/
def slack (t : Table) : Int :=
  t.dirtyQueues - t.dirtyCount

variable {t : Table}

/-! ## What each action does to the slack -/

theorem slack_mark {sel : Watch → Bool}
    (hq : ∀ p, t.watchList.find? sel = some p → p.kind = .queueDir) :
    (t.markQueueDirty sel).slack = t.slack := by
  unfold markQueueDirty
  cases hp : t.watchList.find? sel with
  | none => rfl
  | some p =>
    simp only
    split
    · rfl
    · next hd =>
      have hc := countP_modifyFirst (q := Watch.dirtyQueue) (f := ({ · with dirty := true })) hp
      simp only [Watch.dirtyQueue, hq p hp, hd, beq_self_eq_true, Bool.and_true, Bool.and_false,
        Bool.false_eq_true, if_true, if_false] at hc
      simp only [slack, dirtyCount]
      omega

theorem slack_register (name : String) (wfd ino : Nat) (kind : WatchKind) (isEmpty : Bool) :
    (t.register name wfd ino kind isEmpty).slack = t.slack := by
  simp only [slack, dirtyCount, register, countP_cons, Watch.dirtyQueue]
  cases kind <;> cases isEmpty <;> simp

theorem slack_unwatch (ino : Nat) : (t.unwatchPath ino).slack =
      t.slack + if (t.watchList.find? (·.qIno == ino)).any Watch.dirtyQueue then 1 else 0 := by
  have hc := countP_eraseP (p := (·.qIno == ino)) (q := Watch.dirtyQueue) t.watchList
  simp only [slack, dirtyCount, unwatchPath]
  split at hc
  · next h => rw [if_pos h]; omega
  · next h => rw [if_neg h]; omega

theorem dirtyCount_congr {l l' : List Watch}
    (h : l'.map Watch.dirtyQueue = l.map Watch.dirtyQueue) :
    l'.countP Watch.dirtyQueue = l.countP Watch.dirtyQueue := by
  calc l'.countP Watch.dirtyQueue
      = (l'.map Watch.dirtyQueue).countP id := by rw [countP_map]; rfl
    _ = l.countP Watch.dirtyQueue := by rw [h, countP_map]; rfl

theorem slack_applyPause (ents : List Dirent) : (t.applyPause ents).slack = t.slack := by
  have hc := dirtyCount_congr (map_applyPause (t := t) ents fun _ _ => rfl)
  simp only [slack, dirtyCount, hc]
  rfl

theorem slack_reap (pid : Nat) : (t.reap pid).slack = t.slack := by
  have hc := dirtyCount_congr (map_reap (t := t) pid fun _ => rfl)
  simp only [slack, dirtyCount, hc]
  rfl

theorem slack_dispatch {i : Nat} {e : Watch} {pid : Nat} (hi : t.watchList[i]? = some e)
    (hr : e.ready = true) : (t.dispatch i e pid).slack = t.slack := by
  obtain ⟨hlt, rfl⟩ := List.getElem?_eq_some_iff.1 hi
  simp only [Watch.ready, Bool.and_eq_true, beq_iff_eq, Bool.not_eq_true'] at hr
  have hd : (t.watchList[i]).dirtyQueue = true := by simp [Watch.dirtyQueue, hr]
  have hpos : 0 < t.watchList.countP Watch.dirtyQueue :=
    countP_pos_iff.2 ⟨_, getElem_mem hlt, hd⟩
  simp only [slack, dirtyCount, dispatch, countP_set hlt, hd]
  simp only [Watch.dirtyQueue, Bool.and_false, Bool.false_eq_true, if_true, if_false]
  omega

theorem slack_apply {a : Abs} {act : Act} (h : a.Enabled act) :
    (a.apply act).tab.slack = a.tab.slack ∨
      ∃ ino, act = .unwatch ino ∧ (a.apply act).tab.slack = a.tab.slack +
        if (a.tab.watchList.find? (·.qIno == ino)).any Watch.dirtyQueue then 1 else 0 := by
  cases act with
  | mark sel => exact .inl (slack_mark h)
  | register name wfd ino kind isEmpty => exact .inl (slack_register ..)
  | unwatch ino => exact .inr ⟨ino, rfl, slack_unwatch ino⟩
  | applyPause ents => exact .inl (slack_applyPause ents)
  | reap pid => exact .inl (slack_reap pid)
  | dispatch i e pid => exact .inl (slack_dispatch h.1 h.2.1)
  | died pid => exact .inl rfl

end Table

/-! ## The counter never falls behind -/

section
variable {s : Sys}

theorem slack_nonneg {ok : Sys → Label → Prop} (h : system.ReachBy ok s) : 0 ≤ s.d.tab.slack := by
  refine abs_invariant (P := fun a => 0 ≤ a.tab.slack) h (by decide) fun s l a _ hP _ hen => ?_
  rcases Table.slack_apply hen with heq | ⟨ino, -, heq⟩
  · rw [heq]; exact hP
  · rw [heq]; split <;> omega

@[simp] theorem Sys.status_push (s : Sys) (ts : List Task) : (s.push ts).d.status = s.d.status :=
  rfl

theorem processEvent_status (s : Sys) (ev : InotifyEvent) :
    (processEvent s ev).d.status = s.d.status := by
  unfold processEvent
  split
  · rfl
  · split
    · split <;> rfl
    · split
      · split <;> rfl
      · dsimp only; split <;> rfl
      all_goals rfl

/-- Only the dispatch loop can die of the counter, and only at a watch that is ready while the
counter is zero. -/
theorem runTask_bug {s s' : Sys} {c : Choice} {t : Task} (h : runTask s c t = some s')
    (hr : s.d.status = .running) (hb : s'.d.status = .fatal .bug) :
    ∃ (i : Nat) (e : Watch), s.d.tab.watchList[i]? = some e ∧ e.ready = true ∧
      s.d.tab.dirtyQueues = 0 := by
  cases t with
  | dispatch i =>
    simp only [runTask] at h
    split at h
    · cases h; rw [hr] at hb; cases hb
    · next e hi =>
      unfold dispatchWatch at h
      refine ⟨i, e, hi, ?_⟩
      split at h
      · cases h; rw [Sys.status_push, hr] at hb; cases hb
      · next hrd =>
        split at h
        · next hd => exact ⟨by simpa using hrd, hd⟩
        · (repeat' split at h) <;> cases h <;> rw [Sys.status_push] at hb <;> cases hr.symm.trans hb
  | event ev =>
    cases h
    rw [processEvent_status, hr] at hb
    cases hb
  | handle fd =>
    cases fd <;> simp only [runTask] at h <;> (repeat' split at h) <;> cases h <;>
      first | cases hr.symm.trans hb | cases hb
  | readInotify | readPipe | reap | watchPath | watchAdd | watchQueues
    | watchTimerQueues | applyPause
  | checkTimer | updateTimerfd | timerQueue | timerEntry | moveTimer | ensureQueueDir | ensureTmp
  | renameTimer | setTimer =>
    simp only [runTask, timerEntry] at h
    (repeat' split at h) <;> cases h <;> first | cases hr.symm.trans hb | cases hb

/-- The daemon never reaches the fatal branch of the dispatch loop: a watch that it would dispatch
is dirty, so the counter is positive. -/
theorem status_ne_bug (h : system.Reach s) : s.d.status ≠ .fatal .bug := by
  refine h.invariant (P := fun s => s.d.status ≠ .fatal .bug) ?_ ?_
  · rintro s ⟨-, hd, -⟩
    rw [hd]
    exact Status.noConfusion
  · intro s l s' hr hP _ hs hb
    cases l with
    | daemon c =>
      obtain ⟨hrun, ⟨fds, -, rfl⟩ | ⟨t, rest, -, hs⟩⟩ := daemonStep_cases hs
      · exact hP hb
      · obtain ⟨i, e, hi, hrd, hz⟩ := runTask_bug hs hrun hb
        have hpos : 0 < s.d.tab.dirtyCount := by
          refine countP_pos_iff.2 ⟨e, mem_of_getElem? hi, ?_⟩
          simp only [Watch.ready, Bool.and_eq_true] at hrd
          simp [Watch.dirtyQueue, hrd]
        have hslack := slack_nonneg hr
        simp only [Table.slack] at hslack
        simp only at hz
        omega
    | worker pid c =>
      obtain ⟨w, k, pc, -, -, rfl⟩ := step_worker hs
      exact hP hb
    | env a =>
      obtain ⟨k, -, rfl⟩ := step_env hs
      exact hP hb

/-- The number of queue watches flagged `F_DIRTY` is at most `dirty_queues` in every reachable
state, and the daemon never dies with `dirty_queues == 0, but dirty queues are present`. -/
theorem count_le_dirtyQueues (h : system.Reach s) :
    (s.d.tab.dirtyCount : Int) ≤ s.d.tab.dirtyQueues ∧ s.d.status ≠ .fatal .bug := by
  refine ⟨?_, status_ne_bug h⟩
  have := slack_nonneg h
  unfold Table.slack at this
  omega

theorem count_le_dirtyQueues_dirtyRun : ∃ s, system.Reach s ∧ s.d.tab.dirtyCount = 1 ∧
    (s.d.tab.dirtyCount : Int) ≤ s.d.tab.dirtyQueues ∧ s.d.status ≠ .fatal .bug := by
  obtain ⟨s, hr, hc⟩ := Lts.reach_of_exec Fixture.init_start Fixture.dirtyRun
    (fun s => s.d.tab.dirtyCount == 1) (by decide)
  exact ⟨s, hr, by simpa using hc, count_le_dirtyQueues hr⟩

/-! ## Where the counter stays exact -/

/-- The step drops no watch that is flagged `F_DIRTY`: if it runs `unwatch_path`, the watch found
there is clean. -/
def dropsClean (s : Sys) (l : Label) : Bool :=
  match s.act l with
  | some (.unwatch ino) => !(s.d.tab.watchList.find? (·.qIno == ino)).any Watch.dirtyQueue
  | _ => true

theorem slack_eq_zero (h : system.ReachBy (dropsClean · ·) s) : s.d.tab.slack = 0 := by
  refine abs_invariant (P := fun a => a.tab.slack = 0) h (by decide) fun s l a hok hP ha hen => ?_
  rcases Table.slack_apply hen with heq | ⟨ino, rfl, heq⟩
  · rw [heq, hP]
  · simp only [dropsClean, ha, Bool.not_eq_true'] at hok
    rw [heq, hP, Sys.abs, hok]
    rfl

/-- In a run that drops no dirty watch, `dirty_queues` is positive only while some watched queue is
dirty, so with no dirty queue the daemon waits without a timeout. -/
theorem dirtyQueues_pos_imp (h : system.ReachBy (dropsClean · ·) s) :
    (0 < s.d.tab.dirtyQueues → ∃ w ∈ s.d.tab.watchList, w.dirtyQueue = true) ∧
      ((∀ w ∈ s.d.tab.watchList, w.dirtyQueue = false) → epollTimeout s.d = -1) := by
  have hslack := slack_eq_zero h
  simp only [Table.slack, Table.dirtyCount] at hslack
  constructor
  · intro hpos
    have : 0 < s.d.tab.watchList.countP Watch.dirtyQueue := by omega
    exact countP_pos_iff.1 this
  · intro hclean
    have : s.d.tab.watchList.countP Watch.dirtyQueue = 0 :=
      countP_eq_zero.2 fun w hw => by simp [hclean w hw]
    simp only [epollTimeout, ite_eq_right_iff]
    omega

theorem dirtyQueues_pos_imp_dirtyRun : ∃ s, system.ReachBy (dropsClean · ·) s ∧
    0 < s.d.tab.dirtyQueues ∧ (0 < s.d.tab.dirtyQueues → ∃ w ∈ s.d.tab.watchList,
      w.dirtyQueue = true) ∧
      ((∀ w ∈ s.d.tab.watchList, w.dirtyQueue = false) → epollTimeout s.d = -1) := by
  obtain ⟨s, hr, hc⟩ := Lts.reachBy_of_exec Fixture.init_start dropsClean Fixture.dirtyRun
    (fun s => 0 < s.d.tab.dirtyQueues) (by decide)
  exact ⟨s, hr, by simpa using hc, dirtyQueues_pos_imp hr⟩

/-- A file is published and its queue is removed before the daemon reads either event. -/
def Fixture.removeDirtyRun : List Label :=
  boot ++ [.env (.publish "udev" 0 (file 9 "event")), .env (.rmQueue "udev"), .env (.destroy 4),
    .daemon (.ready [.inotify]), .daemon .go, .daemon (.read 3), .daemon .go, .daemon .go]

/-- A queue that is removed while it is dirty leaves `dirty_queues` positive with no dirty queue in
the watch list. -/
theorem not_dirtyQueues_pos : ¬ ∀ s, system.Reach s → 0 < s.d.tab.dirtyQueues →
    ∃ w ∈ s.d.tab.watchList, w.dirtyQueue = true := by
  intro hall
  obtain ⟨s, hr, hc⟩ := Lts.reach_of_exec Fixture.init_start Fixture.removeDirtyRun
    (fun s => 0 < s.d.tab.dirtyQueues && s.d.tab.watchList.all (!·.dirtyQueue)) (by decide)
  simp only [Bool.and_eq_true, decide_eq_true_eq, all_eq_true, Bool.not_eq_true'] at hc
  obtain ⟨w, hw, hd⟩ := hall s hr hc.1
  rw [hc.2 w hw] at hd
  cases hd

end

end MakeInitrd.Ueventd
