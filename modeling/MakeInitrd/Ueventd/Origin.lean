import MakeInitrd.Ueventd.Files

/-!
# Where a file comes from

`Origin` lists how an entry can come into a queue's timer directory, queue directory or event
directory in one step, whatever else the step does; `step_origin` shows it of every step of
`system`. A file keeps its inode number on its way from the timers through the queue to the events.
-/

namespace MakeInitrd.Ueventd

/-- An entry of a queue's directory after a step was there before, or the step has put it there:
another process has renamed a file to it, the daemon has moved a due timer or made `.tmp`, a worker
of the queue has moved a file or its handler has created one. -/
structure Origin (q : String) (s : Sys) (l : Label) (s' : Sys) : Prop where
  timer : ∀ ent, s'.k.timer.Has q ent → s.k.timer.Has q ent ∨ ∃ i, l = .env (.publishTimer q i ent)
  filter : ∀ ent, s'.k.filter.Has q ent → s.k.filter.Has q ent ∨
    (∃ i, l = .env (.publish q i ent)) ∨ ent.dName = ".tmp" ∨
      ∃ src, s.k.timer.Has q src ∧ eventName src.dName = some ent.dName ∧ ent.dIno = src.dIno ∧
        ent.dType = src.dType
  uevent : ∀ ent, s'.k.uevent.Has q ent → s.k.uevent.Has q ent ∨
    ∃ pid c w, l = .worker pid c ∧ s.ws.find? (·.pid == pid) = some w ∧ w.qName = q ∧
      ((w.pc ≠ .handler ∧ w.pc.dead = false ∧ s.k.filter.Has q ent) ∨
        (w.pc = .handler ∧ c = .put ent))

section
variable {s s' : Sys} {q : String} {l : Label}

theorem Origin.of_eq (ht : s'.k.timer = s.k.timer) (hf : s'.k.filter = s.k.filter)
    (hu : s'.k.uevent = s.k.uevent) : Origin q s l s' where
  timer _ h := .inl (ht ▸ h)
  filter _ h := .inl (hf ▸ h)
  uevent _ h := .inl (hu ▸ h)

theorem Kernel.notify_trees (k : Kernel) (ino : Nat) (kind : EvKind) (name : String) :
    (k.notify ino kind name).timer = k.timer ∧ (k.notify ino kind name).filter = k.filter ∧
      (k.notify ino kind name).uevent = k.uevent := by
  obtain ⟨evs, h⟩ := Kernel.notify_eq k ino kind name
  rw [h]
  exact ⟨rfl, rfl, rfl⟩

theorem Kernel.enqueue_trees (k : Kernel) (ev : InotifyEvent) :
    (k.enqueue ev).timer = k.timer ∧ (k.enqueue ev).filter = k.filter ∧ (k.enqueue ev).uevent =
      k.uevent := by
  unfold Kernel.enqueue
  split <;> exact ⟨rfl, rfl, rfl⟩

theorem processEvent_trees (s : Sys) (ev : InotifyEvent) :
    (processEvent s ev).k.timer = s.k.timer ∧ (processEvent s ev).k.filter = s.k.filter ∧
      (processEvent s ev).k.uevent = s.k.uevent := by
  have hrm : ∀ wd, (s.k.inotifyRmWatch wd).timer = s.k.timer ∧
      (s.k.inotifyRmWatch wd).filter = s.k.filter ∧ (s.k.inotifyRmWatch wd).uevent =
        s.k.uevent := by
    intro wd
    unfold Kernel.inotifyRmWatch
    split
    · exact Kernel.enqueue_trees _ _
    · exact ⟨rfl, rfl, rfl⟩
  unfold processEvent
  split
  · exact ⟨rfl, rfl, rfl⟩
  · split
    · split
      · exact ⟨rfl, rfl, rfl⟩
      · exact hrm _
    · split
      · split <;> exact ⟨rfl, rfl, rfl⟩
      · dsimp only
        split <;> exact ⟨rfl, rfl, rfl⟩
      all_goals exact ⟨rfl, rfl, rfl⟩

theorem renameTimer_origin {k' : Kernel} {queue name : String}
    (h : renameTimer s.k queue name = some k') : Origin q s l { s with k := k' } := by
  simp only [renameTimer, Option.bind_eq_bind, Option.bind_eq_some_iff] at h
  obtain ⟨ev, hev, src, hsrc, ent, hent, dst, -, h⟩ := h
  split at h
  · cases h
  · cases h
    refine ⟨fun e he => ?_, fun e he => ?_, fun e he => ?_⟩
    all_goals simp only [(Kernel.notify_trees _ _ _ _).1, (Kernel.notify_trees _ _ _ _).2.1,
      (Kernel.notify_trees _ _ _ _).2.2] at he
    · exact .inl he.of_remove.1
    · rcases he.of_put with he | ⟨rfl, rfl⟩
      · exact .inl he
      · have hname : ent.dName = name := by simpa using List.find?_some hent
        exact .inr
          (.inr (.inr ⟨ent, ⟨src, hsrc, List.mem_of_find?_eq_some hent⟩, hname ▸ hev, rfl, rfl⟩))
    · exact .inl he

/-- Where entries come from in a task of the daemon -/
theorem runTask_origin {c : Choice} {t : Task} (h : runTask s c t = some s') : Origin q s l s' := by
  cases t with
  | event ev =>
    cases h
    obtain ⟨ht, hf, hu⟩ := processEvent_trees s ev
    exact .of_eq ht hf hu
  | ensureQueueDir queue =>
    simp only [runTask] at h
    split at h
    · cases h
      exact .of_eq rfl rfl rfl
    · next hex =>
      simp only [Bool.or_eq_true, not_or, Bool.not_eq_true, Option.isSome_eq_false_iff,
        Option.isNone_iff_eq_none] at hex
      split at h
      · next ino =>
        split at h
        · cases h
          obtain ⟨ht, hf, hu⟩ := Kernel.notify_trees
            { s.k with filter := s.k.filter.mkdir 0 queue ino }
            s.k.filter.ino .create queue
          refine ⟨fun e he => .inl (ht ▸ he), fun e he => .inl ?_, fun e he => .inl (hu ▸ he)⟩
          exact (hf ▸ he : QueueTree.Has _ q e).of_mkdir hex.1
        · cases h
      · cases h
        exact .of_eq rfl rfl rfl
      · cases h
  | ensureTmp queue =>
    simp only [runTask] at h
    have hput : ∀ e, (s.k.filter.modify queue (·.put 0 ⟨0, ".tmp", .dir⟩)).Has q e →
        s.k.filter.Has q e ∨ e.dName = ".tmp" := by
      intro e he
      exact he.of_put.imp_right fun hnew => by rw [hnew.2]
    split at h
    · cases h
      exact .of_eq rfl rfl rfl
    · split at h <;> cases h <;> split
      · exact .of_eq rfl rfl rfl
      · exact ⟨fun _ he => .inl he, fun e he => (hput e he).imp_right fun hn => .inr (.inl hn),
          fun _ he => .inl he⟩
      · exact .of_eq rfl rfl rfl
      · exact ⟨fun _ he => .inl he, fun e he => (hput e he).imp_right fun hn => .inr (.inl hn),
          fun _ he => .inl he⟩
  | renameTimer queue name =>
    simp only [runTask] at h
    split at h
    · cases h
      exact .of_eq rfl rfl rfl
    · next k hk =>
      cases h
      have horig : Origin q s l { s with k := k } := renameTimer_origin hk
      exact ⟨horig.timer, horig.filter, horig.uevent⟩
  | watchAdd base name wfd kind =>
    simp only [runTask] at h
    split at h
    · cases h
      unfold Kernel.inotifyRmWatch
      split
      · obtain ⟨ht, hf, hu⟩ := Kernel.enqueue_trees
          { s.k with watches := s.k.watches.filter (·.wd != wfd) } ⟨wfd, .ignored, ""⟩
        exact .of_eq ht hf hu
      · exact .of_eq rfl rfl rfl
    · cases h
      exact .of_eq rfl rfl rfl
  | handle fd =>
    cases fd <;> simp only [runTask] at h <;> (repeat' split at h) <;> cases h <;>
      exact .of_eq rfl rfl rfl
  | dispatch i =>
    simp only [runTask, dispatchWatch] at h
    (repeat' split at h) <;> cases h <;> exact .of_eq rfl rfl rfl
  | readInotify | readPipe | reap | watchPath | watchQueues | watchTimerQueues | applyPause
  | checkTimer | updateTimerfd | timerQueue | timerEntry | moveTimer | setTimer =>
    simp only [runTask, timerEntry] at h
    (repeat' split at h) <;> cases h <;> exact .of_eq rfl rfl rfl

/-- Where entries come from in a step of another process -/
theorem env_origin {a : EnvAct} {k' : Kernel} (h : s.k.env a = some k') :
    Origin q s (.env a) { s with k := k' } := by
  -- a notification at the end changes no file
  have hnotify : ∀ {k₁ : Kernel} {ino kind name}, Origin q s (.env a) { s with k := k₁ } →
      Origin q s (.env a) { s with k := k₁.notify ino kind name } := fun {k₁ ino kind name} ho => by
    obtain ⟨ht, hf, hu⟩ := Kernel.notify_trees k₁ ino kind name
    exact ⟨fun e he => ho.timer e (ht ▸ he), fun e he => ho.filter e (hf ▸ he),
      fun e he => ho.uevent e (hu ▸ he)⟩
  cases a with
  | publish q' i ent =>
    obtain ⟨d, -, h⟩ := Option.bind_eq_some_iff.1 h
    split at h <;> cases h
    refine hnotify ⟨fun _ he => .inl he, fun e he => ?_, fun _ he => .inl he⟩
    rcases he.of_put with he | ⟨rfl, rfl⟩
    · exact .inl he
    · exact .inr (.inl ⟨i, rfl⟩)
  | write q' name =>
    obtain ⟨d, -, h⟩ := Option.bind_eq_some_iff.1 h
    split at h <;> cases h
    exact hnotify (.of_eq rfl rfl rfl)
  | unpublish q' name =>
    obtain ⟨d, -, h⟩ := Option.bind_eq_some_iff.1 h
    cases h
    exact ⟨fun _ he => .inl he, fun _ he => .inl he.of_remove.1, fun _ he => .inl he⟩
  | mkQueue i q' ino =>
    simp only [Kernel.env, Bool.and_eq_true, Option.isNone_iff_eq_none] at h
    split at h
    · next hnew =>
      cases h
      exact hnotify ⟨fun _ he => .inl he, fun _ he => .inl (he.of_mkdir hnew.1.1.1),
        fun _ he => .inl he⟩
    · cases h
  | rmQueue q' =>
    obtain ⟨d, -, h⟩ := Option.bind_eq_some_iff.1 h
    cases h
    exact ⟨fun _ he => .inl he, fun _ he => .inl he.of_rmdir, fun _ he => .inl he⟩
  | destroy ino =>
    simp only [Kernel.env] at h
    split at h <;> cases h
    obtain ⟨ht, hf, hu⟩ := Kernel.notify_trees s.k ino .deleteSelf ""
    unfold Kernel.dropInode
    split
    · exact .of_eq ht hf hu
    · exact .of_eq ((Kernel.enqueue_trees _ _).1.trans ht) ((Kernel.enqueue_trees _ _).2.1.trans hf)
        ((Kernel.enqueue_trees _ _).2.2.trans hu)
  | publishTimer q' i ent =>
    obtain ⟨d, -, h⟩ := Option.bind_eq_some_iff.1 h
    split at h <;> cases h
    refine hnotify ⟨fun e he => ?_, fun _ he => .inl he, fun _ he => .inl he⟩
    rcases he.of_put with he | ⟨rfl, rfl⟩
    · exact .inl he
    · exact .inr ⟨i, rfl⟩
  | unpublishTimer q' name =>
    obtain ⟨d, -, h⟩ := Option.bind_eq_some_iff.1 h
    cases h
    exact ⟨fun _ he => .inl he.of_remove.1, fun _ he => .inl he, fun _ he => .inl he⟩
  | mkTimer i q' ino =>
    simp only [Kernel.env, Bool.and_eq_true, Option.isNone_iff_eq_none] at h
    split at h
    · next hnew =>
      cases h
      exact hnotify ⟨fun _ he => .inl (he.of_mkdir hnew.1.1.1), fun _ he => .inl he,
        fun _ he => .inl he⟩
    · cases h
  | rmTimer q' =>
    obtain ⟨d, -, h⟩ := Option.bind_eq_some_iff.1 h
    cases h
    exact ⟨fun _ he => .inl he.of_rmdir, fun _ he => .inl he, fun _ he => .inl he⟩
  | unlinkEvent q' name =>
    obtain ⟨d, -, h⟩ := Option.bind_eq_some_iff.1 h
    cases h
    exact ⟨fun _ he => .inl he, fun _ he => .inl he, fun _ he => .inl he.of_remove.1⟩
  | mkEvents i q' =>
    simp only [Kernel.env] at h
    split at h
    · next hnew =>
      cases h
      exact ⟨fun _ he => .inl he, fun _ he => .inl he,
        fun _ he => .inl (he.of_mkdir (Option.isNone_iff_eq_none.1 hnew))⟩
    · cases h
  | rmEvents q' =>
    obtain ⟨d, -, h⟩ := Option.bind_eq_some_iff.1 h
    cases h
    exact ⟨fun _ he => .inl he, fun _ he => .inl he, fun _ he => .inl he.of_rmdir⟩
  | mkPause i ent =>
    simp only [Kernel.env] at h
    split at h <;> cases h
    exact hnotify (.of_eq rfl rfl rfl)
  | rmPause name =>
    obtain ⟨d, -, h⟩ := Option.bind_eq_some_iff.1 h
    cases h
    exact hnotify (.of_eq rfl rfl rfl)
  | tick | terminate =>
    cases h
    exact .of_eq rfl rfl rfl

/-- Where entries come from in a step of a worker -/
theorem worker_origin {pid : Nat} {c : WorkerChoice} (h : step s (.worker pid c) = some s') :
    Origin q s (.worker pid c) s' := by
  obtain ⟨w, k, pc, hw, hs, rfl⟩ := step_worker h
  unfold workerStep at hs
  cases c with
  | die => simp only at hs; split at hs <;> cases hs; exact .of_eq rfl rfl rfl
  | also ent =>
    simp only at hs
    (repeat' split at hs) <;> cases hs
    exact .of_eq rfl rfl rfl
  | put ent =>
    simp only at hs
    split at hs
    · next hpc _ =>
      cases hs
      refine ⟨fun _ he => .inl he, fun _ he => .inl he, fun e he => ?_⟩
      rcases QueueTree.Has.of_put he with he | ⟨rfl, rfl⟩
      · exact .inl he
      · exact .inr ⟨pid, _, w, rfl, hw, rfl, .inr ⟨hpc, rfl⟩⟩
    · cases hs
  | unlink name =>
    simp only at hs
    split at hs
    · cases hs
      exact ⟨fun _ he => .inl he, fun _ he => .inl he,
        fun _ he => .inl (QueueTree.Has.of_remove he).1⟩
    · cases hs
  | go =>
    simp only at hs
    split at hs
    · split at hs
      · cases hs
        exact .of_eq rfl rfl rfl
      · split at hs
        · cases hs
          exact .of_eq rfl rfl rfl
        · next hnew =>
          cases hs
          exact ⟨fun _ he => .inl he, fun _ he => .inl he,
            fun _ he => .inl (QueueTree.Has.of_mkdir (by simpa using hnew) he)⟩
    · cases hs
      exact .of_eq rfl rfl rfl
    · next ino ent ents hpc =>
      split at hs
      · cases hs
        exact .of_eq rfl rfl rfl
      · split at hs
        · cases hs
          exact .of_eq rfl rfl rfl
        · next k₁ hk₁ =>
          cases hs
          obtain ⟨new, hnew, rfl⟩ := moveFile_spec hk₁
          refine ⟨fun _ he => .inl he, fun _ he => .inl (QueueTree.Has.of_remove he).1,
            fun e he => ?_⟩
          rcases QueueTree.Has.of_put he with he | ⟨rfl, rfl⟩
          · exact .inl he
          · have hmoving : w.pc ≠ .handler ∧ w.pc.dead = false := by
              rw [hpc]
              exact ⟨nofun, rfl⟩
            exact .inr ⟨pid, _, w, rfl, hw, rfl, .inl ⟨hmoving.1, hmoving.2, hnew⟩⟩
    · split at hs <;> cases hs <;> exact .of_eq rfl rfl rfl
    · cases hs
      exact .of_eq rfl rfl rfl
    · split at hs <;> cases hs <;> exact .of_eq rfl rfl rfl
    · cases hs
      unfold Kernel.writePipe
      split <;> exact .of_eq rfl rfl rfl
    · cases hs
    · cases hs

theorem step_origin (h : system.step s l = some s') : Origin q s l s' := by
  cases l with
  | daemon c =>
    obtain ⟨-, ⟨fds, -, rfl⟩ | ⟨t, rest, -, h⟩⟩ := daemonStep_cases h
    · exact .of_eq rfl rfl rfl
    · have horig : Origin q { s with d.todo := rest } (.daemon c) s' := runTask_origin h
      exact ⟨horig.timer, horig.filter, horig.uevent⟩
  | worker pid c => exact worker_origin h
  | env a =>
    obtain ⟨k, hk, rfl⟩ := step_env h
    exact env_origin hk

end

end MakeInitrd.Ueventd
