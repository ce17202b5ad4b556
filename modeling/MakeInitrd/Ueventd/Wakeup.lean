import MakeInitrd.Ueventd.Cover

/-!
# Wakeups

The dispatch loop clears `F_DIRTY` before the worker starts, so a `fork` that fails, a worker that
dies and a full pipe lose what the flag stood for (`not_wakeup_kept`), and a queue is not marked
when only `uevent_dir` holds events at its registration. `keepsWakeup` excludes these steps where
they matter, and the removal of watched directories. Every other step keeps each event file covered,
so none is left without a wakeup when the daemon waits (`wakeup_kept`).
-/

namespace MakeInitrd.Ueventd

open List

/-! ## The daemon's tasks -/

section
variable {s s' : Sys} {c : Choice}

/-- The invariant of a whole state. -/
def Sys.Kept (s : Sys) : Prop :=
  MakeInitrd.Ueventd.Kept [] s.k s.d.tab.watchList s.d.todo s.ws

theorem kept_readInotify {n : Nat} (h : Kept [] s.k s.d.tab.watchList s.d.todo s.ws) :
    Kept [] { s.k with inotify := s.k.inotify.drop n } s.d.tab.watchList
      ((s.k.inotify.take n).map .event ++ [.readInotify] ++ s.d.todo) s.ws := by
  have hkinds :
      ∀ t ∈ (s.k.inotify.take n).map Task.event ++ [.readInotify], t.Ok s.k ∧ t.wfd = none := by
    intro t ht
    rcases mem_append.1 ht with ht | ht
    · obtain ⟨ev, hev, rfl⟩ := mem_map.1 ht
      exact ⟨h.1.kinds ev (mem_of_mem_take hev), rfl⟩
    · cases mem_singleton.1 ht
      exact ⟨trivial, rfl⟩
  have hpush := h.push hkinds
  refine ⟨{ hpush.1 with kinds := fun ev hev => h.1.kinds ev (mem_of_mem_drop hev) }, ?_⟩
  refine hpush.2.mono (fun _ _ h => h) ?_ (fun _ h => .inl h) (fun _ _ h => .inl h) (fun _ _ h => h)
    fun _ h _ => h
  rintro q wd - (hd | ⟨ev, hev, hwd⟩ | ht | hl)
  · exact .inl hd
  · rw [← take_append_drop n s.k.inotify] at hev
    rcases mem_append.1 hev with hev | hev
    · refine .inr (.inr (.inl ⟨ev, ?_, hwd⟩))
      exact mem_append_left _ (mem_append_left _ (mem_map_of_mem hev))
    · exact .inr (.inl ⟨ev, hev, hwd⟩)
  · exact .inr (.inr (.inl ht))
  · exact .inr (.inr (.inr hl))

/-- An inotify event is processed. -/
theorem kept_event {ev : InotifyEvent}
    (h : Kept [] s.k s.d.tab.watchList (.event ev :: s.d.todo) s.ws) :
    (processEvent s ev).Kept := by
  have hself : ev.kind ≠ .deleteSelf := h.1.tasks _ (mem_cons_self ..)
  have hlate : Kept [ev.wd] s.k s.d.tab.watchList s.d.todo s.ws := by
    refine ⟨h.1.of_todo ((sublist_cons_self ..).filterMap _) fun t ht =>
      .inl (mem_cons_of_mem _ ht), ?_⟩
    refine h.2.mono (fun _ _ h => h) ?_ (fun _ h => .inl h) (fun _ _ h => .inl h) (fun _ _ h => h)
      fun _ h _ => h
    rintro q wd - (hd | hk | ⟨ev', ht, rfl⟩ | hl)
    · exact .inl hd
    · exact .inr (.inl hk)
    · rcases mem_cons.1 ht with heq | ht
      · cases heq
        exact .inr (.inr (.inr (mem_singleton_self _)))
      · exact .inr (.inr (.inl ⟨ev', ht, rfl⟩))
    · cases hl
  -- if the event is for no queue watch, nothing has to be marked
  have hother : (∀ p ∈ s.d.tab.watchList, p.qWatchfd = ev.wd → p.kind ≠ .queueDir) → s.Kept := by
    intro hnone
    refine ⟨hlate.1, hlate.2.of_list rfl (fun _ h => h) fun q wd hwd hq => ?_⟩
    cases mem_singleton.1 hwd
    obtain ⟨r, hr, hk, -, hwd⟩ := hq
    exact absurd hk (hnone r hr hwd)
  unfold processEvent
  cases hp : s.d.tab.watchList.find? (·.qWatchfd == ev.wd) with
  | none =>
    refine hother fun p hin hwd => ?_
    simpa [hwd] using find?_eq_none.1 hp p hin
  | some p =>
    have hpin := mem_of_find?_eq_some hp
    have hpwd : p.qWatchfd = ev.wd := by simpa using find?_some hp
    have hkind : p.kind ≠ .queueDir → s.Kept := fun hk => hother fun r hr hwd => by
      rw [h.1.eq_of_wd hr hpin (hwd.trans hpwd.symm)]
      exact hk
    have hpush : p.kind ≠ .queueDir → ∀ t : Task, t.Ok s.k → t.wfd = none → (s.push [t]).Kept :=
      fun hk t hok hwfd => (hkind hk).push (forall_mem_singleton.2 ⟨hok, hwfd⟩)
    simp only [hself, if_false]
    cases hk : p.kind with
    | queueDir =>
      refine hlate.mark fun q wd hwd hq => ⟨p, hp, ?_⟩
      rw [hpwd, mem_singleton.1 hwd]
    | rootDir =>
      dsimp only
      split
      · exact hpush (by simp [hk]) _ trivial rfl
      · exact hkind (by simp [hk])
    | timerRoot =>
      dsimp only
      split
      · exact hpush (by simp [hk]) _ trivial rfl
      · exact hkind (by simp [hk])
    | pauseDir => exact hpush (by simp [hk]) _ trivial rfl
    | timerDir => exact hkind (by simp [hk])

/-- A message of a worker marks its queue. -/
theorem kept_readPipe {value : Nat} {rest : List Nat} (hpipe : s.k.pipe = value :: rest)
    (h : s.Kept) : Kept [] { s.k with pipe := rest }
      (s.d.tab.markQueueDirty (isWatchOf value)).watchList ([.readPipe] ++ s.d.todo) s.ws := by
  have hlate : Kept [value] { s.k with pipe := rest } s.d.tab.watchList s.d.todo s.ws := by
    refine ⟨{ h.1 with tasks := h.1.tasks, queues := h.1.queues }, ?_⟩
    refine h.2.mono (fun _ _ h => h) ?_ (fun wd hwd => ?_) (fun _ _ h => .inl h) (fun _ _ h => h)
      fun _ h _ => h
    · rintro q wd - (hd | hk | ht | hl)
      · exact .inl hd
      · exact .inr (.inl hk)
      · exact .inr (.inr (.inl ht))
      · cases hl
    · rw [hpipe] at hwd
      rcases mem_cons.1 hwd with rfl | hwd
      · exact .inr fun _ _ => .inr (.inr (.inr (mem_singleton_self _)))
      · exact .inl hwd
  refine (hlate.mark ?_).push (forall_mem_singleton.2 ⟨trivial, rfl⟩)
  intro q wd hwd hq
  cases mem_singleton.1 hwd
  obtain ⟨r, hr, hk, -, hwd⟩ := hq
  cases hp : s.d.tab.watchList.find? (isWatchOf value) with
  | none => exact absurd (by simp [isWatchOf, hk, hwd]) (find?_eq_none.1 hp r hr)
  | some p =>
    have := find?_some hp
    simp only [isWatchOf, Bool.and_eq_true, beq_iff_eq] at this
    exact ⟨p, rfl, this.2⟩

theorem kept_reap {pid : Nat} (hdead : s.ws.any (fun w => w.pid == pid && w.pc.dead) = true)
    (h : s.Kept) :
    Kept [] s.k (s.d.tab.reap pid).watchList s.d.todo (s.ws.filter (·.pid != pid)) := by
  have hmap : (s.d.tab.reap pid).watchList.map Watch.key = s.d.tab.watchList.map Watch.key :=
    Table.map_reap pid fun _ => rfl
  have hcov : Covered [] s.k (s.d.tab.reap pid).watchList s.d.todo s.ws :=
    h.2.of_list hmap (fun wd hd => hd.of_map (Table.map_reap pid fun _ => rfl)) fun _ _ hl =>
      nomatch hl
  refine ⟨(h.1.of_list hmap).of_workers (fun w hw => ?_) ?_, ?_⟩
  · exact ((h.1.of_list hmap).workers w (mem_filter.1 hw).1)
  · exact h.1.pids.sublist (filter_sublist.map _)
  · refine hcov.mono (fun _ _ h => h) (fun _ _ _ h => h) (fun _ h => .inl h) (fun _ _ h => .inl h)
      (fun _ _ h => h) fun w hw halive => mem_filter.2 ⟨hw, bne_iff_ne.2 fun hpid => ?_⟩
    obtain ⟨v, hv, hvd⟩ := any_eq_true.1 hdead
    simp only [Bool.and_eq_true, beq_iff_eq] at hvd
    have : w = v := inj_on_of_nodup_map h.1.pids hw hv (hpid.trans hvd.1.symm)
    rw [this, hvd.2] at halive
    cases halive

/-- The end of `watch_path`: a new queue is marked if its directory holds files, and then it may
have files in `uevent_dir` too. -/
theorem kept_register {base : Base} {name : String} {wfd ino : Nat} {kind : WatchKind}
    {isEmpty : Bool}
    (h : Kept [] s.k s.d.tab.watchList (.watchAdd base name wfd kind :: s.d.todo) s.ws)
    (hempty : isEmpty = (s.k.opendir base name).all emptyDirectory)
    (huev : kind = .queueDir → isEmpty = true → ∀ file, ¬ s.k.uevent.Holds name file) :
    Kept [] s.k (s.d.tab.register name wfd ino kind isEmpty).watchList s.d.todo s.ws := by
  have hwired : Wired s.k (s.d.tab.register name wfd ino kind isEmpty).watchList s.d.todo s.ws :=
    h.1.addRecord rfl rfl
  have hold : ∀ {wd}, Awake [] s.k s.d.tab.watchList s.d.todo wd →
      Awake [] s.k (s.d.tab.register name wfd ino kind isEmpty).watchList s.d.todo wd := by
    rintro wd (⟨r, hr, hd⟩ | hk)
    · exact .inl ⟨r, mem_cons_of_mem _ hr, hd⟩
    · exact .inr hk
  -- the new watch is flagged unless its directory is empty
  have hnew : kind = .queueDir → isEmpty = false →
      Awake [] s.k (s.d.tab.register name wfd ino kind isEmpty).watchList s.d.todo wfd := by
    rintro rfl rfl
    exact .inl ⟨_, mem_cons_self .., rfl, rfl⟩
  have hcov := (h.pop nofun).2
  refine ⟨hwired, ⟨?_, ?_⟩⟩
  · rintro q wd file ⟨r, hr, hk, rfl, rfl⟩ hfile
    rcases mem_cons.1 hr with rfl | hr
    · refine .inl (hnew hk ?_)
      obtain ⟨rfl, -, -⟩ := h.1.tasks _ (mem_cons_self ..) hk
      obtain ⟨ent, ⟨d, hd, hent⟩, hev, -⟩ := hfile
      have hhid : ent.hidden = false := by
        simp only [Dirent.isEvent, Bool.and_eq_true, Bool.not_eq_true'] at hev
        exact hev.2
      simp only [hempty, Kernel.opendir]
      rw [hd, Option.all_some]
      refine all_eq_false.2 ⟨ent, ?_, by simp [hhid]⟩
      exact mem_cons_of_mem _ (mem_cons_of_mem _ hent)
    · exact (hcov.ready _ _ file ⟨r, hr, hk, rfl, rfl⟩ hfile).imp_left hold
  · rintro q wd file ⟨r, hr, hk, rfl, rfl⟩ hfile
    rcases mem_cons.1 hr with rfl | hr
    · cases hie : isEmpty with
      | false => exact .inl (hie ▸ hnew hk hie)
      | true => exact absurd hfile (huev hk hie file)
    · exact (hcov.events _ _ file ⟨r, hr, hk, rfl, rfl⟩ hfile).imp_left hold

/-- The dispatch loop takes the flag away: what it stood for is left to the new worker, or there is
no event file. -/
theorem kept_dispatch {i : Nat} {e : Watch} {pid : Nat} {ws' : List Worker} (h : s.Kept)
    (hi : s.d.tab.watchList[i]? = some e)
    (hws : ws' = s.ws ∧
      (∀ file, ¬ s.k.filter.Holds e.qName file ∧ ¬ s.k.uevent.Holds e.qName file) ∨
      ∃ n, ws' = ⟨pid, e.qName, e.qWatchfd, n, .start⟩ :: s.ws ∧ e.kind = .queueDir ∧ pid ∉
        s.ws.map (·.pid)) :
    Kept [] s.k (s.d.tab.dispatch i e pid).watchList s.d.todo ws' := by
  have he : e ∈ s.d.tab.watchList := mem_of_getElem? hi
  have hmap :
      (s.d.tab.dispatch i e pid).watchList.map Watch.key = s.d.tab.watchList.map Watch.key :=
    Table.map_dispatch hi rfl
  have hwired := h.1.of_list hmap
  have hsub : ∀ w ∈ s.ws, w ∈ ws' := by
    rcases hws with ⟨rfl, -⟩ | ⟨n, rfl, -⟩
    · exact fun w hw => hw
    · exact fun w hw => mem_cons_of_mem _ hw
  have hawake : ∀ {wd}, wd ≠ e.qWatchfd → Awake [] s.k s.d.tab.watchList s.d.todo wd →
      Awake [] s.k (s.d.tab.dispatch i e pid).watchList s.d.todo wd := by
    rintro wd hne (⟨r, hr, hwd, hd⟩ | hk)
    · obtain ⟨j, hj⟩ := mem_iff_getElem?.1 hr
      have hij : i ≠ j := by
        rintro rfl
        cases hi.symm.trans hj
        exact hne hwd.symm
      refine .inl ⟨r, mem_iff_getElem?.2 ⟨j, ?_⟩, hwd, hd⟩
      rw [Table.dispatch, getElem?_set_ne hij]
      exact hj
    · exact .inr hk
  -- the queue of the dispatched watch is the only one with its descriptor
  have hname : ∀ {q wd}, Watches s.d.tab.watchList q wd → wd = e.qWatchfd → q = e.qName := by
    rintro q wd ⟨r, hr, -, rfl, rfl⟩ hwd
    rw [h.1.eq_of_wd hr he hwd]
  refine ⟨?_, ⟨?_, ?_⟩⟩
  · rcases hws with ⟨rfl, -⟩ | ⟨n, rfl, hk, hpid⟩
    · exact hwired
    · refine hwired.of_workers (forall_mem_cons.2 ⟨?_, hwired.workers⟩)
        (nodup_cons.2 ⟨hpid, h.1.pids⟩)
      exact Watches.of_map hmap.symm ⟨e, he, hk, rfl, rfl⟩
  · intro q wd file hq hfile
    have hq := hq.of_map hmap
    by_cases hwd : wd = e.qWatchfd
    · cases hname hq hwd
      rcases hws with ⟨-, hidle⟩ | ⟨n, rfl, -⟩
      · exact absurd hfile (hidle file).1
      · exact .inr ⟨_, mem_cons_self .., rfl, trivial⟩
    · rcases h.2.ready q wd file hq hfile with ha | ⟨w, hw, hrest⟩
      · exact .inl (hawake hwd ha)
      · exact .inr ⟨w, hsub w hw, hrest⟩
  · intro q wd file hq hfile
    have hq := hq.of_map hmap
    by_cases hwd : wd = e.qWatchfd
    · cases hname hq hwd
      rcases hws with ⟨-, hidle⟩ | ⟨n, rfl, -⟩
      · exact absurd hfile (hidle file).2
      · exact .inr (.inr ⟨_, mem_cons_self .., rfl, rfl⟩)
    · rcases h.2.events q wd file hq hfile with ha | hp | ⟨w, hw, hrest⟩
      · exact .inl (hawake hwd ha)
      · exact .inr (.inl hp)
      · exact .inr (.inr ⟨w, hsub w hw, hrest⟩)

/-- No event file of the queue in either directory. -/
def Sys.idle (s : Sys) (queue : String) : Bool :=
  (s.k.filter.lookup queue).all (·.ents.all (!·.isEvent)) &&
    (s.k.uevent.lookup queue).all (·.ents.all (!·.isEvent))

/-- The queue's watch is flagged `F_DIRTY`. -/
def Sys.marked (s : Sys) (queue : String) : Bool :=
  s.d.tab.watchList.any fun r => isQueueWatch queue r && r.dirty

/-- What the daemon's next action on the watch list must not do: clear the flag of a queue with
event files when `fork` fails, or add an unmarked queue with files in `uevent_dir`. -/
def Sys.keepsFlag (s : Sys) : Option Act → Bool
  | some (.dispatch _ e pid) => pid != 0 || s.idle e.qName
  | some (.register name _ _ .queueDir isEmpty) =>
    !isEmpty || (s.k.uevent.lookup name).all (·.ents.all (!·.isEvent))
  | _ => true

theorem not_holds {t : QueueTree} {q : String}
    (h : (t.lookup q).all (·.ents.all (!·.isEvent)) = true) (file : String) : ¬ t.Holds q file := by
  rintro ⟨ent, ⟨d, hd, hent⟩, hev, -⟩
  rw [hd, Option.all_some] at h
  simpa [hev] using all_eq_true.1 h ent hent

theorem Sys.not_holds_of_idle {q : String} (h : s.idle q = true) (file : String) :
    ¬ s.k.filter.Holds q file ∧ ¬ s.k.uevent.Holds q file := by
  simp only [Sys.idle, Bool.and_eq_true] at h
  exact ⟨not_holds h.1 file, not_holds h.2 file⟩

theorem ne_dot_of_isSubdir {ent : Dirent} (h : isSubdir ent = true) : ent.dName ≠ "." := by
  intro heq
  simp [isSubdir, isDotDir, heq] at h

theorem kept_handle {fd : Fd} (h : s.Kept) (hs : runTask s c (.handle fd) = some s')
    (hrun : s'.d.status = .running) : s'.Kept := by
  cases fd with
  | inotify | pipe =>
    cases hs
    exact h.push (forall_mem_singleton.2 ⟨trivial, rfl⟩)
  | signal =>
    simp only [runTask] at hs
    split at hs
    · cases hs
      cases hrun
    · split at hs
      · cases hs
        have h' : Kept [] { s.k with sigchld := false } _ _ _ :=
          h.of_evolves (.of_eq rfl rfl rfl rfl rfl rfl rfl)
        exact h'.push (forall_mem_singleton.2 ⟨trivial, rfl⟩)
      · cases hs
        exact h
  | timer =>
    simp only [runTask] at hs
    split at hs
    · cases hs
      exact h.of_evolves (.of_eq rfl rfl rfl rfl rfl rfl rfl)
    · cases hs
      exact h

/-- `inotify_add_watch` is not made, fails or adds a watch that the rest of `watch_path` registers.
-/
theorem kept_watchPath {base : Base} {name : String} {mask : List EvKind} {kind : WatchKind}
    (h : Kept [] s.k s.d.tab.watchList (.watchPath base name mask kind :: s.d.todo) s.ws)
    (hs : runTask s c (.watchPath base name mask kind) = some s') (hrun : s'.d.status = .running) :
    s'.Kept := by
  simp only [runTask] at hs
  split at hs
  · cases hs
    cases hrun
  · cases hstat : s.k.stat base name with
    | none =>
      rw [hstat] at hs
      cases hs
      cases hrun
    | some ino =>
      rw [hstat] at hs
      simp only at hs
      split at hs
      · cases hs
        exact h.pop (by simp)
      · next hany =>
        cases hs
        refine ⟨h.1.addWatch hstat (by simpa using hany), ?_⟩
        refine (h.pop (by simp)).2.mono (fun _ _ h => h) ?_ (fun _ h => .inl h)
          (fun _ _ h => .inl h)
          (fun _ _ h => h) fun _ h _ => h
        rintro q wd - (hd | hk | ⟨ev, hev, hwd⟩ | hl)
        · exact .inl hd
        · exact .inr (.inl hk)
        · exact .inr (.inr (.inl ⟨ev, mem_cons_of_mem _ hev, hwd⟩))
        · cases hl

theorem kept_ensureQueueDir {queue : String} (h : s.Kept) (hdot : queue ≠ ".")
    (hs : runTask s c (.ensureQueueDir queue) = some s') (hrun : s'.d.status = .running) :
    s'.Kept := by
  simp only [runTask] at hs
  split at hs
  · cases hs
    exact h.push (forall_mem_singleton.2 ⟨hdot, rfl⟩)
  · next hex =>
    cases c with
    | ino ino =>
      simp only at hs
      split at hs
      · cases hs
        have hnone : s.k.filter.lookup queue = none := by
          simp only [Bool.or_eq_true, not_or, Bool.not_eq_true, Option.isSome_eq_false_iff,
            Option.isNone_iff_eq_none] at hex
          exact hex.1
        refine (h.of_evolves (.makeQueue hnone)).push ?_
        exact forall_mem_singleton.2 ⟨hdot, rfl⟩
      · cases hs
    | fail =>
      cases hs
      cases hrun
    | go | ready | read | pid => cases hs

theorem kept_ensureTmp {queue : String} (h : s.Kept) (hdot : queue ≠ ".")
    (hs : runTask s c (.ensureTmp queue) = some s') (hrun : s'.d.status = .running) : s'.Kept := by
  simp only [runTask] at hs
  split at hs
  · cases hs
    cases hrun
  · next d hd =>
    -- `.tmp` is a directory and no event file
    have hevolves :
        s.k.Evolves { s.k with filter := s.k.filter.modify queue (·.put 0 ⟨0, ".tmp", .dir⟩) } := by
      refine .of_trees rfl rfl rfl rfl rfl (fun q ino hq => ?_) (fun q name hq => ?_) fun _ _ h => h
      · rw [← hq]
        exact QueueTree.inoOf_modify fun _ => rfl
      · exact hq.of_put.resolve_right fun hfile => by cases hfile.2.2
    have hkept : ∀ {x : Sys}, x = (if (d.find ".tmp").isSome then s else
        { s with k.filter := s.k.filter.modify queue (·.put 0 ⟨0, ".tmp", .dir⟩) }) → x.Kept := by
      rintro x rfl
      split
      · exact h
      · exact h.of_evolves hevolves
    split at hs
    · cases hs
      exact hkept rfl
    · cases hs
      exact (hkept rfl).push (forall_mem_singleton.2 ⟨fun _ => ⟨rfl, hdot, rfl⟩, rfl⟩)

/-- The dispatch loop goes on or starts a worker. -/
theorem kept_dispatchLoop {i : Nat} (h : s.Kept) (hs : runTask s c (.dispatch i) = some s')
    (hrun : s'.d.status = .running) (hok : s.keepsFlag (s.taskAct c (.dispatch i)) = true) :
    s'.Kept := by
  have hnext :
      ∀ {k l ws}, Kept [] k l s.d.todo ws → Kept [] k l ([.dispatch (i + 1)] ++ s.d.todo) ws :=
    fun h => h.push (forall_mem_singleton.2 ⟨trivial, rfl⟩)
  simp only [runTask] at hs
  split at hs
  · cases hs
    exact h
  · next e hi =>
    unfold dispatchWatch at hs
    split at hs
    · cases hs
      exact hnext h
    · next hr =>
      split at hs
      · cases hs
        cases hrun
      · next hz =>
        simp only [Bool.not_eq_true', Bool.not_eq_false] at hr
        simp only [Sys.taskAct, Sys.dispatchAct, hi, hr, hz, ne_eq, not_false_eq_true, and_self,
          if_true] at hok
        simp only [Watch.ready, Bool.and_eq_true, beq_iff_eq] at hr
        cases c with
        | fail =>
          cases hs
          simp only [Sys.keepsFlag, bne_self_eq_false, Bool.false_or] at hok
          exact hnext (kept_dispatch h hi (.inl ⟨rfl, Sys.not_holds_of_idle hok⟩))
        | pid pid =>
          simp only at hs
          split at hs
          · next hpid =>
            cases hs
            exact hnext (kept_dispatch h hi (.inr ⟨_, rfl, hr.1.1.1, hpid.2⟩))
          · cases hs
        | go | ready | read | ino => cases hs

/-- Every task of the daemon keeps the event files covered. -/
theorem runTask_kept {t : Task} (h : Kept [] s.k s.d.tab.watchList (t :: s.d.todo) s.ws)
    (hs : runTask s c t = some s') (hrun : s'.d.status = .running)
    (hok : s.keepsFlag (s.taskAct c t) = true) : s'.Kept := by
  -- most tasks only leave the stack and put others there
  by_cases hevent : ∃ ev, t = .event ev
  · obtain ⟨ev, rfl⟩ := hevent
    cases hs
    exact kept_event h
  have hpop : s.Kept := h.pop fun ev he => hevent ⟨ev, he⟩
  have htop : t.Ok s.k := h.1.tasks t (mem_cons_self ..)
  cases t with
  | handle fd => exact kept_handle hpop hs hrun
  | readInotify =>
    simp only [runTask] at hs
    split at hs
    · cases hs
      exact hpop
    · cases c with
      | read n =>
        simp only at hs
        split at hs
        · cases hs
        · cases hs
          exact kept_readInotify hpop
      | go | fail | ready | pid | ino => cases hs
  | event ev => exact absurd ⟨ev, rfl⟩ hevent
  | readPipe =>
    simp only [runTask] at hs
    cases hpipe : s.k.pipe with
    | nil =>
      rw [hpipe] at hs
      cases hs
      exact hpop
    | cons value rest =>
      rw [hpipe] at hs
      cases hs
      exact kept_readPipe hpipe hpop
  | reap =>
    simp only [runTask] at hs
    cases c with
    | go =>
      simp only at hs
      split at hs <;> cases hs
      exact hpop
    | fail =>
      cases hs
      cases hrun
    | pid pid =>
      simp only at hs
      split at hs
      · next hdead =>
        cases hs
        exact (kept_reap hdead hpop).push (forall_mem_singleton.2 ⟨trivial, rfl⟩)
      · cases hs
    | ready | read | ino => cases hs
  | watchPath base name mask kind => exact kept_watchPath h hs hrun
  | watchAdd base name wfd kind =>
    simp only [runTask] at hs
    cases hstat : s.k.stat base name with
    | none =>
      rw [hstat] at hs
      cases hs
      cases hrun
    | some ino =>
      rw [hstat] at hs
      cases hs
      refine kept_register h rfl ?_
      rintro rfl hempty
      simp only [Sys.taskAct, hstat, Option.map_some, Sys.keepsFlag, hempty, Bool.not_true,
        Bool.false_or] at hok
      exact not_holds hok
  | watchQueues =>
    cases hs
    refine hpop.push fun t ht => ?_
    obtain ⟨ent, hent, rfl⟩ := mem_map.1 ht
    exact ⟨fun _ => ⟨rfl, ne_dot_of_isSubdir (mem_filter.1 hent).2, rfl⟩, rfl⟩
  | watchTimerQueues =>
    cases hs
    refine hpop.push fun t ht => ?_
    obtain ⟨ent, -, rfl⟩ := mem_map.1 ht
    exact ⟨by simp [Task.Ok], rfl⟩
  | applyPause =>
    cases hs
    have hmap : (s.d.tab.applyPause s.k.pause.readdir).watchList.map Watch.key =
        s.d.tab.watchList.map Watch.key := Table.map_applyPause _ fun _ _ => rfl
    refine ⟨hpop.1.of_list hmap, hpop.2.of_list hmap (fun wd hd => ?_) fun _ _ hl => by cases hl⟩
    exact hd.of_map (Table.map_applyPause _ fun _ _ => rfl)
  | checkTimer =>
    simp only [runTask] at hs
    split at hs
    · cases hs
      exact hpop.push (forall_mem_singleton.2 ⟨trivial, rfl⟩)
    · cases hs
      exact hpop
  | updateTimerfd =>
    cases hs
    refine hpop.push fun t ht => ?_
    rcases mem_append.1 ht with ht | ht
    · obtain ⟨ent, hent, rfl⟩ := mem_map.1 ht
      exact ⟨ne_dot_of_isSubdir (mem_filter.1 hent).2, rfl⟩
    · cases mem_singleton.1 ht
      exact ⟨trivial, rfl⟩
  | timerQueue now queue =>
    simp only [runTask] at hs
    split at hs
    · cases hs
      cases hrun
    · cases hs
      refine hpop.push fun t ht => ?_
      obtain ⟨ent, -, rfl⟩ := mem_map.1 ht
      exact ⟨htop, rfl⟩
  | timerEntry now queue ent =>
    simp only [runTask, timerEntry] at hs
    split at hs
    · cases hs
      exact hpop
    · split at hs
      · cases hs
        exact hpop
      · split at hs
        · cases hs
          exact hpop
        · cases hs
          exact hpop.push (forall_mem_singleton.2 ⟨htop, rfl⟩)
  | moveTimer queue name =>
    simp only [runTask] at hs
    split at hs
    · cases hs
      refine hpop.push (forall_mem_cons.2 ⟨⟨htop, rfl⟩, ?_⟩)
      exact forall_mem_singleton.2 ⟨trivial, rfl⟩
    · cases hs
      exact hpop
  | ensureQueueDir queue => exact kept_ensureQueueDir hpop htop hs hrun
  | ensureTmp queue => exact kept_ensureTmp hpop htop hs hrun
  | renameTimer queue name =>
    simp only [runTask] at hs
    split at hs
    · cases hs
      exact hpop
    · next k hk =>
      cases hs
      exact (hpop.of_evolves (.renameTimer hk)).mark fun _ _ hl => by cases hl
  | setTimer =>
    have hevolves : ∀ at', s.k.Evolves { s.k with timerAt := at' } := fun _ =>
      .of_eq rfl rfl rfl rfl rfl rfl rfl
    simp only [runTask] at hs
    split at hs
    · cases hs
      exact hpop.of_evolves (hevolves none)
    · split at hs
      · cases hs
        cases hrun
      · cases hs
        exact hpop.of_evolves (hevolves _)
  | dispatch i => exact kept_dispatchLoop hpop hs hrun hok

end

/-! ## The workers -/

section
variable {k k' : Kernel} {l : List Watch} {todo : List Task} {ws : List Worker} {w : Worker}
  {pid : Nat} {pc : WorkerPc}

/-- A worker's step: the files it was to move are moved, still on its list or covered otherwise, and
when it ends, the events it leaves behind are. -/
theorem Kept.worker (h : Kept [] k l todo ws) (hw : ws.find? (·.pid == pid) = some w)
    (hkern : k' = { k with filter := k'.filter, uevent := k'.uevent, pipe := k'.pipe })
    (hdirs : ∀ q ino, k.filter.inoOf q = some ino → k'.filter.inoOf q = some ino)
    (hf : ∀ q name, k'.filter.Holds q name → k.filter.Holds q name)
    (hu : ∀ q name, k'.uevent.Holds q name → k.uevent.Holds q name ∨
      (q = w.qName ∧ pc.dead = false))
    (hpipe : k.pipe ⊆ k'.pipe)
    (hmove : ∀ name wd, w.pc.WillMove name → Watches l w.qName wd → k'.filter.Holds w.qName name →
      pc.WillMove name ∨ Awake [] k l todo wd)
    (hend : pc.dead = true → ∀ name wd, Watches l w.qName wd → k'.uevent.Holds w.qName name →
      Awake [] k l todo wd ∨ wd ∈ k'.pipe) :
    Kept [] { k' with sigchld := k'.sigchld || pc.dead } l todo
      (ws.modifyFirst (·.pid == pid) ({ · with pc := pc })) := by
  have hin := mem_of_find?_eq_some hw
  have hnew : { w with pc := pc } ∈ ws.modifyFirst (·.pid == pid) ({ · with pc := pc }) :=
    modifyFirst_find hw
  have hold : ∀ v ∈ ws, v = w ∨ v ∈ ws.modifyFirst (·.pid == pid) ({ · with pc := pc }) :=
    fun v hv => mem_modifyFirst_of_find hw hv
  have hwatched : ∀ q wd, k.Watched q wd → k'.Watched q wd := fun q wd hq => by
    refine hq.mono hdirs ?_
    rw [hkern]
    exact List.Subset.refl _
  have hawake :
      ∀ {wd}, Awake [] k l todo wd → Awake [] { k' with sigchld := k'.sigchld || pc.dead }
        l todo wd := by
    rw [hkern]
    exact fun ha => ha
  refine ⟨?_, ⟨?_, ?_⟩⟩
  · rw [hkern] at hwatched ⊢
    refine { h.1 with
      tasks := fun t ht => (h.1.tasks t ht).mono hwatched
      queues := fun q wd hq => hwatched q wd (h.1.queues q wd hq)
      workers := fun v hv => ?_
      pids := ?_ }
    · rcases mem_modifyFirst hv with hv | ⟨v', hv', -, rfl⟩
      · exact h.1.workers v hv
      · exact h.1.workers v' hv'
    · have hpids := h.1.pids
      rwa [← map_modifyFirst (p := (·.pid == pid)) (f := ({ · with pc := pc }))
        fun _ => rfl] at hpids
  · intro q wd name hq hfile
    rcases h.2.ready q wd name hq (hf q name hfile) with ha | ⟨v, hv, rfl, hm⟩
    · exact .inl (hawake ha)
    · rcases hold v hv with rfl | hv
      · exact (hmove name wd hm hq hfile).elim (fun hm => .inr ⟨_, hnew, rfl, hm⟩) fun ha =>
          .inl (hawake ha)
      · exact .inr ⟨v, hv, rfl, hm⟩
  · intro q wd name hq hfile
    -- an event of the worker's own queue is its own until it ends
    have hown : q = w.qName → Awake [] k l todo wd ∨ wd ∈ k'.pipe ∨ pc.dead = false := by
      rintro rfl
      cases hd : pc.dead with
      | false => exact .inr (.inr rfl)
      | true => exact (hend hd name wd hq hfile).imp_right .inl
    have hdone : q = w.qName → Awake [] { k' with sigchld := k'.sigchld || pc.dead } l todo wd ∨
        wd ∈ k'.pipe ∨ ∃ v ∈ ws.modifyFirst (·.pid == pid) ({ · with pc := pc }),
          v.qName = q ∧ v.pc.dead = false :=
      fun hqw => (hown hqw).imp hawake (Or.imp id fun hd => ⟨_, hnew, hqw.symm, hd⟩)
    rcases hu q name hfile with hfile | ⟨hqw, -⟩
    · rcases h.2.events q wd name hq hfile with ha | hp | ⟨v, hv, hvq, hd⟩
      · exact .inl (hawake ha)
      · exact .inr (.inl (hpipe hp))
      · rcases hold v hv with rfl | hv
        · exact hdone hvq.symm
        · exact .inr (.inr ⟨v, hv, hvq, hd⟩)
    · exact hdone hqw

/-- A step that moves no file into or out of the two directories and does not end the worker. -/
theorem Kept.worker_same (h : Kept [] k l todo ws) (hw : ws.find? (·.pid == pid) = some w)
    (hmove : ∀ name, w.pc.WillMove name → k.filter.Holds w.qName name → pc.WillMove name)
    (hend : pc.dead = true → ∀ name, ¬ k.uevent.Holds w.qName name) :
    Kept [] { k with sigchld := k.sigchld || pc.dead } l todo
      (ws.modifyFirst (·.pid == pid) ({ · with pc := pc })) :=
  h.worker hw rfl (fun _ _ h => h) (fun _ _ h => h) (fun _ _ h => .inl h) (List.Subset.refl _)
    (fun name _ hm _ hf => .inl (hmove name hm hf))
    fun hd name _ _ hu => absurd hu (hend hd name)

theorem not_holds_of_empty {d : Dir} {t : QueueTree} {q : String} (hd : t.lookup q = some d)
    (hempty : emptyDirectory d = true) (name : String) : ¬ t.Holds q name := by
  rintro ⟨ent, ⟨d', hd', hent⟩, hev, -⟩
  cases hd.symm.trans hd'
  have := all_eq_true.1 hempty ent (mem_cons_of_mem _ (mem_cons_of_mem _ hent))
  simp [Dirent.isEvent, this] at hev

/-- The worker ends without `exit(0)`, or its message does not fit into the pipe. -/
def workerFails (k : Kernel) (w : Worker) (c : WorkerChoice) : Bool :=
  match workerStep k w c with
  | some (_, pc) => pc == .killed || (w.pc == .signal && (k.writePipe w.qWatchfd).isNone)
  | none => false

/-- Every step of a worker that does not fail keeps them covered. -/
theorem workerStep_kept {c : WorkerChoice} (h : Kept [] k l todo ws)
    (hw : ws.find? (·.pid == pid) = some w) (hs : workerStep k w c = some (k', pc))
    (hok : workerFails k w c = false) :
    Kept [] { k' with sigchld := k'.sigchld || pc.dead } l todo
      (ws.modifyFirst (·.pid == pid) ({ · with pc := pc })) := by
  simp only [workerFails, hs, Bool.or_eq_false_iff, beq_eq_false_iff_ne, ne_eq] at hok
  obtain ⟨hkilled, hfull⟩ := hok
  cases c with
  | die =>
    simp only [workerStep] at hs
    split at hs <;> cases hs
    exact absurd rfl hkilled
  | also ent =>
    simp only [workerStep] at hs
    split at hs
    · next ino ents src hpc hsrc =>
      split at hs
      · cases hs
        refine h.worker_same hw (fun name hm _ => ?_) nofun
        rw [hpc] at hm
        obtain ⟨e, he, hrest⟩ := hm
        exact ⟨e, mem_cons_of_mem _ he, hrest⟩
      · cases hs
    · cases hs
  | put ent =>
    simp only [workerStep] at hs
    split at hs
    · next dst hpc hdst =>
      cases hs
      refine h.worker hw rfl (fun _ _ h => h) (fun _ _ h => h) (fun q name hq => ?_)
        (List.Subset.refl _) (fun name wd hm => by simp [hpc, WorkerPc.WillMove] at hm) nofun
      exact hq.of_put.imp_right fun hput => ⟨hput.1, rfl⟩
    · cases hs
  | unlink name =>
    simp only [workerStep] at hs
    split at hs
    · next dst hpc hdst =>
      cases hs
      exact h.worker hw rfl (fun _ _ h => h) (fun _ _ h => h) (fun q name hq => .inl hq.of_remove.1)
        (List.Subset.refl _) (fun name wd hm => by simp [hpc, WorkerPc.WillMove] at hm) nofun
    · cases hs
  | go =>
    simp only [workerStep] at hs
    split at hs
    · -- `start`: what the directory holds is on the list
      split at hs
      · cases hs
        exact absurd rfl hkilled
      · next hpc src hsrc =>
        have hlist :
            ∀ name, k.filter.Holds w.qName name →
              (WorkerPc.moving src.ino src.readdir).WillMove name := by
          rintro name ⟨ent, ⟨d, hd, hent⟩, hev⟩
          cases hsrc.symm.trans hd
          exact ⟨ent, mem_cons_of_mem _ (mem_cons_of_mem _ hent), hev⟩
        split at hs
        · cases hs
          exact h.worker_same hw (fun name _ hf => hlist name hf) nofun
        · next hnone =>
          cases hs
          refine h.worker hw rfl (fun _ _ h => h) (fun _ _ h => h) (fun q name hq => .inl ?_)
            (List.Subset.refl _) (fun name _ _ _ hf => .inl (hlist name hf)) nofun
          exact hq.of_mkdir (by simpa using hnone)
    · next ino hpc =>
      cases hs
      refine h.worker_same hw (fun name hm _ => ?_) nofun
      rw [hpc] at hm
      obtain ⟨e, he, -⟩ := hm
      cases he
    · next ino ent ents hpc =>
      split at hs
      · next hev =>
        cases hs
        refine h.worker_same hw (fun name hm _ => ?_) nofun
        rw [hpc] at hm
        obtain ⟨e, he, hee, hname⟩ := hm
        rcases mem_cons.1 he with rfl | he
        · simp [hee] at hev
        · exact ⟨e, he, hee, hname⟩
      · split at hs
        · cases hs
          exact absurd rfl hkilled
        · next k₁ hk₁ =>
          cases hs
          obtain ⟨new, -, rfl⟩ := moveFile_spec hk₁
          refine h.worker hw rfl (fun q ino hq => ?_) (fun q name hq => hq.of_remove.1)
            (fun q name hq => ?_) (List.Subset.refl _) (fun name wd hm _ hf => .inl ?_) nofun
          · rw [← hq]
            exact QueueTree.inoOf_modify fun _ => rfl
          · exact hq.of_put.imp_right fun hput => ⟨hput.1, rfl⟩
          · rw [hpc] at hm
            obtain ⟨e, he, hee, hname⟩ := hm
            rcases mem_cons.1 he with rfl | he
            · exact absurd hname.symm (hf.of_remove.2 rfl)
            · exact ⟨e, he, hee, hname⟩
    · next hpc =>
      split at hs
      · cases hs
        exact absurd rfl hkilled
      · next dst hdst =>
        cases hs
        refine h.worker_same hw (fun name hm => by simp [hpc, WorkerPc.WillMove] at hm) fun hd => ?_
        split at hd
        · next hempty => exact not_holds_of_empty hdst hempty
        · cases hd
    · next hpc =>
      cases hs
      exact h.worker_same hw (fun name hm => by simp [hpc, WorkerPc.WillMove] at hm) nofun
    · next hpc =>
      split at hs
      · cases hs
        exact absurd rfl hkilled
      · next dst hdst =>
        cases hs
        refine h.worker_same hw (fun name hm => by simp [hpc, WorkerPc.WillMove] at hm) fun hd => ?_
        split at hd
        · next hempty => exact not_holds_of_empty hdst hempty
        · cases hd
    · next hpc =>
      -- the message names the one watch of the worker's queue
      cases hs
      simp only [hpc, beq_self_eq_true, Bool.true_and, Option.isNone_eq_false_iff,
        Option.isSome_iff_exists] at hfull
      obtain ⟨k₁, hk₁⟩ := hfull
      simp only [hk₁, Option.getD_some]
      unfold Kernel.writePipe at hk₁
      split at hk₁
      · cases hk₁
        refine h.worker hw rfl (fun _ _ h => h) (fun _ _ h => h) (fun _ _ h => .inl h)
          (subset_append_left _ _) (fun name wd hm => by simp [hpc, WorkerPc.WillMove] at hm)
          fun _ name wd hq _ => .inr ?_
        have hown := h.1.queues _ _ (h.1.workers w (mem_of_find?_eq_some hw))
        rw [(h.1.queues _ _ hq).wd_inj h.1.inos hown]
        exact mem_append_right _ (mem_singleton_self _)
      · cases hk₁
    · cases hs
    · cases hs

/-- A worker that fails has changed nothing. -/
theorem workerStep_of_fails {c : WorkerChoice} (hs : workerStep k w c = some (k', pc))
    (hf : workerFails k w c = true) : k' = k ∧ pc.dead = true := by
  simp only [workerFails, hs, Bool.or_eq_true, Bool.and_eq_true, beq_iff_eq] at hf
  rcases hf with rfl | ⟨hpc, hfull⟩
  · refine ⟨?_, rfl⟩
    simp only [workerStep] at hs
    (repeat' split at hs) <;>
      first
      | exact (Prod.mk.inj (Option.some.inj hs)).1.symm
      | cases (Prod.mk.inj (Option.some.inj hs)).2
      | cases hs
  · cases c with
    | go =>
      simp only [workerStep, hpc] at hs
      cases hs
      rw [Option.isNone_iff_eq_none.1 hfull]
      exact ⟨rfl, rfl⟩
    | die =>
      simp only [workerStep, hpc] at hs
      cases hs
      exact ⟨rfl, rfl⟩
    | also | put | unlink => simp [workerStep, hpc] at hs

end

/-! ## No wakeup is lost -/

/-- The step removes no directory, `fork` and the workers fail only where no event file depends on
them, and no unmarked queue with events left in `uevent_dir` is registered. -/
def keepsWakeup (s : Sys) : Label → Bool
  | .daemon c => s.keepsFlag (s.act (.daemon c))
  | .worker pid c => (s.ws.find? (·.pid == pid)).all fun w =>
    !workerFails s.k w c || s.idle w.qName || s.marked w.qName
  | .env a => a.keepsDirs

section
variable {s s' : Sys}

theorem worker_kept {pid : Nat} {c : WorkerChoice} (h : s.Kept)
    (hs : step s (.worker pid c) = some s') (hok : keepsWakeup s (.worker pid c) = true) :
    s'.Kept := by
  obtain ⟨w, k, pc, hw, hstep, rfl⟩ := step_worker hs
  simp only [keepsWakeup, hw, Option.all_some, Bool.or_eq_true, Bool.not_eq_true'] at hok
  cases hf : workerFails s.k w c with
  | false => exact workerStep_kept h hw hstep hf
  | true =>
    obtain ⟨rfl, -⟩ := workerStep_of_fails hstep hf
    have hcov : (∀ file, ¬ s.k.filter.Holds w.qName file ∧ ¬ s.k.uevent.Holds w.qName file) ∨
        ∀ wd, Watches s.d.tab.watchList w.qName wd →
          Awake [] s.k s.d.tab.watchList s.d.todo wd := by
      rcases hok with (hno | hidle) | hmark
      · rw [hf] at hno
        cases hno
      · exact .inl (Sys.not_holds_of_idle hidle)
      · obtain ⟨r, hr, hd⟩ := any_eq_true.1 hmark
        simp only [isQueueWatch, Bool.and_eq_true, beq_iff_eq] at hd
        refine .inr fun wd hq => .inl ⟨r, hr, ?_, hd.2⟩
        exact Kernel.Watched.wd_inj h.1.inos (h.1.queues _ _ ⟨r, hr, hd.1.1, hd.1.2, rfl⟩)
          (h.1.queues _ _ hq)
    refine Kept.worker h hw rfl (fun _ _ h => h) (fun _ _ h => h) (fun _ _ h => .inl h)
      (List.Subset.refl _) (fun name wd _ hq hfile => ?_) fun _ name wd hq hfile => ?_
    · rcases hcov with hnone | hawake
      · exact absurd hfile (hnone name).1
      · exact .inr (hawake wd hq)
    · rcases hcov with hnone | hawake
      · exact absurd hfile (hnone name).2
      · exact .inl (hawake wd hq)

theorem kept_init (h : system.init s) : s.Kept := by
  obtain ⟨hk, hd, hw⟩ := h
  have hnone : ∀ q wd, ¬ Watches [] q wd := by simp [Watches]
  unfold Sys.Kept
  rw [hd, hw]
  refine ⟨⟨hk.orphans, by simp [hk.inotify], by simp [hk.watches], ?_, nodup_nil,
    by simp [Daemon.start, Table.start, startup, Task.wfd], fun q wd hq => (hnone q wd hq).elim,
    by simp, nodup_nil⟩, fun q wd _ hq => (hnone q wd hq).elim,
    fun q wd _ hq => (hnone q wd hq).elim⟩
  intro t ht
  simp only [Daemon.start, startup, mem_cons, not_mem_nil, or_false] at ht
  rcases ht with rfl | rfl | rfl | rfl | rfl | rfl | rfl <;> first | trivial | simp [Task.Ok]

/-- In every run of `keepsWakeup` steps each event file is covered. -/
theorem kept_of_reach (h : system.ReachBy (keepsWakeup · ·) s) (hrun : s.d.status = .running) :
    s.Kept := by
  refine h.invariant (P := fun s => s.d.status = .running → s.Kept)
    (fun s hi _ => kept_init hi) ?_ hrun
  intro s l s' _ hP hok hs hrun'
  cases l with
  | daemon c =>
    obtain ⟨hrun, ⟨fds, ht, rfl⟩ | ⟨t, rest, ht, hs⟩⟩ := daemonStep_cases hs
    · refine (hP hrun).push fun t ht => ?_
      rcases mem_append.1 ht with ht | ht
      · obtain ⟨fd, -, rfl⟩ := mem_map.1 ht
        exact ⟨trivial, rfl⟩
      · simp only [mem_cons, not_mem_nil, or_false] at ht
        rcases ht with rfl | rfl <;> exact ⟨trivial, rfl⟩
    · have hkept := hP hrun
      unfold Sys.Kept at hkept
      rw [ht] at hkept
      refine runTask_kept hkept hs hrun' ?_
      simp only [keepsWakeup, Sys.act, ht, head?_cons, Option.bind_some] at hok
      exact hok
  | worker pid c =>
    have hrun : s.d.status = .running := by
      obtain ⟨w, k, pc, -, -, rfl⟩ := step_worker hs
      exact hrun'
    exact worker_kept (hP hrun) hs hok
  | env a =>
    obtain ⟨k, hk, rfl⟩ := step_env hs
    exact (hP hrun').of_evolves (env_evolves hk hok (hP hrun').1.orphans)

/-- In a run whose steps all keep the wakeups, whenever the daemon waits in `epoll_wait` while an
event file lies in `filter_dir` or `uevent_dir` for a watched queue, the queue is marked, a worker
for it is not reaped, or an inotify event or a message for it is undelivered. -/
theorem wakeup_kept (h : system.ReachBy (keepsWakeup · ·) s) (hrun : s.d.status = .running)
    (hwait : s.d.todo = []) {r : Watch} (hr : r ∈ s.d.tab.watchList) (hk : r.kind = .queueDir)
    {file : String} (hfile : s.k.filter.Holds r.qName file ∨ s.k.uevent.Holds r.qName file) :
    r.dirty = true ∨ (∃ w ∈ s.ws, w.qName = r.qName) ∨
      (∃ ev ∈ s.k.inotify, ev.wd = r.qWatchfd) ∨ r.qWatchfd ∈ s.k.pipe := by
  have hkept := kept_of_reach h hrun
  have hq : Watches s.d.tab.watchList r.qName r.qWatchfd := ⟨r, hr, hk, rfl, rfl⟩
  have hawake : Awake [] s.k s.d.tab.watchList s.d.todo r.qWatchfd →
      r.dirty = true ∨ ∃ ev ∈ s.k.inotify, ev.wd = r.qWatchfd := by
    rintro (⟨v, hv, hwd, hd⟩ | hev | ⟨ev, hev, -⟩ | hl)
    · rw [hkept.1.eq_of_wd hv hr hwd] at hd
      exact .inl hd
    · exact .inr hev
    · rw [hwait] at hev
      cases hev
    · cases hl
  rcases hfile with hfile | hfile
  · rcases hkept.2.ready _ _ _ hq hfile with ha | ⟨w, hw, hname, -⟩
    · rcases hawake ha with hd | hev
      · exact .inl hd
      · exact .inr (.inr (.inl hev))
    · exact .inr (.inl ⟨w, hw, hname⟩)
  · rcases hkept.2.events _ _ _ hq hfile with ha | hp | ⟨w, hw, hname, -⟩
    · rcases hawake ha with hd | hev
      · exact .inl hd
      · exact .inr (.inr (.inl hev))
    · exact .inr (.inr (.inr hp))
    · exact .inr (.inl ⟨w, hw, hname⟩)

/-- The dispatch loop is at the dirty queue `udev`. -/
def Fixture.readyRun : List Label :=
  dirtyRun ++ [.daemon .go, .daemon .go]

/-- A state that waits in `epoll_wait` with an event file of `udev`. -/
def Fixture.waitsWithFile (s : Sys) : Bool :=
  s.d.status == .running && s.d.todo.isEmpty &&
    (s.k.filter.lookup "udev").any (·.ents.any fun ent => ent.isEvent && ent.dName == "event")

theorem Fixture.waitsWithFile_spec (h : waitsWithFile s = true) :
    s.d.status = .running ∧ s.d.todo = [] ∧ s.k.filter.Holds "udev" "event" := by
  simp only [waitsWithFile, Bool.and_eq_true, beq_iff_eq, List.isEmpty_iff, Option.any_eq_true,
    any_eq_true] at h
  obtain ⟨⟨hrun, hwait⟩, d, hd, ent, hent, hev, hname⟩ := h
  exact ⟨hrun, hwait, ent, ⟨d, hd, hent⟩, hev, hname⟩

theorem wakeup_kept_dispatched : ∃ s, system.ReachBy (keepsWakeup · ·) s ∧ ∃ r ∈ s.d.tab.watchList,
    s.k.filter.Holds r.qName "event" ∧ (r.dirty = true ∨ (∃ w ∈ s.ws, w.qName = r.qName) ∨
      (∃ ev ∈ s.k.inotify, ev.wd = r.qWatchfd) ∨ r.qWatchfd ∈ s.k.pipe) := by
  obtain ⟨s, hr, hc⟩ := Lts.reachBy_of_exec Fixture.init_start keepsWakeup
    (Fixture.readyRun ++ .daemon (.pid 100) :: replicate 4 (.daemon .go))
    (fun s => Fixture.waitsWithFile s && s.d.tab.watchList.any (isQueueWatch "udev")) (by decide)
  rw [Bool.and_eq_true, any_eq_true] at hc
  obtain ⟨hwait, r, hin, hq⟩ := hc
  obtain ⟨hrun, htodo, hfile⟩ := Fixture.waitsWithFile_spec hwait
  simp only [isQueueWatch, Bool.and_eq_true, beq_iff_eq] at hq
  rw [← hq.2] at hfile
  exact ⟨s, hr, r, hin, hfile, wakeup_kept hr hrun htodo hin hq.1 (.inl hfile)⟩

/-- When `fork` fails, the queue's flag is cleared and nothing will look at its event again. -/
theorem not_wakeup_kept : ¬ ∀ s, system.Reach s → s.d.status = .running → s.d.todo = [] →
    ∀ r ∈ s.d.tab.watchList, r.kind = .queueDir → ∀ file,
      s.k.filter.Holds r.qName file ∨ s.k.uevent.Holds r.qName file → r.dirty = true ∨
        (∃ w ∈ s.ws, w.qName = r.qName) ∨
          (∃ ev ∈ s.k.inotify, ev.wd = r.qWatchfd) ∨ r.qWatchfd ∈ s.k.pipe := by
  intro hall
  obtain ⟨s, hr, hc⟩ := Lts.reach_of_exec Fixture.init_start
    (Fixture.readyRun ++ .daemon .fail :: replicate 4 (.daemon .go))
    (fun s => Fixture.waitsWithFile s && s.ws.isEmpty && s.k.inotify.isEmpty && s.k.pipe.isEmpty &&
      s.d.tab.watchList.any fun r => isQueueWatch "udev" r && !r.dirty) (by decide)
  simp only [Bool.and_eq_true, List.any_eq_true, List.isEmpty_iff] at hc
  obtain ⟨⟨⟨⟨hwait, hws⟩, hev⟩, hpipe⟩, r, hin, hq, hd⟩ := hc
  obtain ⟨hrun, htodo, hfile⟩ := Fixture.waitsWithFile_spec hwait
  simp only [isQueueWatch, Bool.and_eq_true, beq_iff_eq] at hq
  rw [← hq.2] at hfile
  rcases hall s hr hrun htodo r hin hq.1 _ (.inl hfile) with hdirty | ⟨w, hw, -⟩ | ⟨ev, h, -⟩ | hp
  · simp [hdirty] at hd
  · rw [hws] at hw
    cases hw
  · rw [hev] at h
    cases h
  · rw [hpipe] at hp
    cases hp

end

end MakeInitrd.Ueventd
