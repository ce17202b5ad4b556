import MakeInitrd.Ueventd.Files
import MakeInitrd.Ueventd.Table

/-!
# What makes an event file be seen

A queue is looked at again because its watch is flagged `F_DIRTY`, because an inotify event or a
pipe message for its watch is on the way, or because a worker for it is running. `Covered` says this
file by file: an event file of `filter_dir` that has no other reason to be seen is on the list of a
worker that moves files, one of `uevent_dir` belongs to a worker that will look at the directory
before it ends. `Wired` is what this rests on: the daemon's watches name the kernel's, each with its
own descriptor.
-/

namespace MakeInitrd.Ueventd

open List

/-- A worker at this place in its code still has the file of this name to move. -/
def WorkerPc.WillMove (name : String) : WorkerPc → Prop
  | .start => True
  | .moving _ ents => ∃ ent ∈ ents, ent.isEvent = true ∧ ent.dName = name
  | _ => False

variable {name : String}

theorem WorkerPc.WillMove.alive {pc : WorkerPc} (h : pc.WillMove name) : pc.dead = false := by
  cases pc <;> first | rfl | exact h.elim

/-- The watch descriptor that a task is about to register. -/
def Task.wfd : Task → Option Nat
  | .watchAdd _ _ wfd _ => some wfd
  | _ => none

/-- What the code before a task has made sure of. -/
def Task.Ok (k : Kernel) : Task → Prop
  | .event ev => ev.kind ≠ .deleteSelf
  | .watchPath base name mask kind =>
    kind = .queueDir → base = .filter ∧ name ≠ "." ∧ mask = evQueueMask
  | .watchAdd base name wfd kind =>
    kind = .queueDir → base = .filter ∧ name ≠ "." ∧ k.Watched name wfd
  | .timerQueue _ queue | .timerEntry _ queue _ | .moveTimer queue _ | .ensureQueueDir queue
  | .ensureTmp queue => queue ≠ "."
  | _ => True

theorem Task.Ok.mono {k k' : Kernel} (h : ∀ q wd, k.Watched q wd → k'.Watched q wd) {t : Task}
    (ht : t.Ok k) : t.Ok k' := by
  cases t with
  | watchAdd base name wfd kind =>
    intro hk
    obtain ⟨hb, hn, hw⟩ := ht hk
    exact ⟨hb, hn, h name wfd hw⟩
  | handle | readInotify | event | readPipe | reap | watchPath | watchQueues | watchTimerQueues
  | applyPause | checkTimer | updateTimerfd | timerQueue | timerEntry | moveTimer | ensureQueueDir
  | ensureTmp | renameTimer | setTimer | dispatch => exact ht

/-- What a watch is known by: `mark_queue_dirty`, `apply_pause`, the `waitpid` loop and the dispatch
loop do not assign it. -/
def Watch.key (r : Watch) : WatchKind × String × Nat :=
  (r.kind, r.qName, r.qWatchfd)

/-- The list has a queue watch of that name and descriptor. -/
def Watches (l : List Watch) (queue : String) (wd : Nat) : Prop :=
  ∃ r ∈ l, r.kind = .queueDir ∧ r.qName = queue ∧ r.qWatchfd = wd

/-- A watch with that descriptor is flagged `F_DIRTY`. -/
def Dirty (l : List Watch) (wd : Nat) : Prop :=
  ∃ r ∈ l, r.qWatchfd = wd ∧ r.dirty = true

/-- The daemon's watches, the tasks that register watches and the workers agree with the kernel's
watches. -/
structure Wired (k : Kernel) (l : List Watch) (todo : List Task) (ws : List Worker) : Prop where
  orphans : k.orphans = []
  kinds : ∀ ev ∈ k.inotify, ev.kind ≠ .deleteSelf
  inos : (k.watches.map (·.ino)).Nodup
  tasks : ∀ t ∈ todo, t.Ok k
  wds : (l.map (·.qWatchfd) ++ todo.filterMap Task.wfd).Nodup
  fresh : ∀ wd ∈ l.map (·.qWatchfd) ++ todo.filterMap Task.wfd, wd < k.nextWd
  queues : ∀ q wd, Watches l q wd → k.Watched q wd
  workers : ∀ w ∈ ws, Watches l w.qName w.qWatchfd
  pids : (ws.map (·.pid)).Nodup

/-- The queue of that descriptor will be looked at: it is flagged, an inotify event for it is queued
or in the daemon's hands, or the step in progress (`late`) has just taken one. -/
def Awake (late : List Nat) (k : Kernel) (l : List Watch) (todo : List Task) (wd : Nat) : Prop :=
  Dirty l wd ∨ (∃ ev ∈ k.inotify, ev.wd = wd) ∨
    (∃ ev, Task.event ev ∈ todo ∧ ev.wd = wd) ∨ wd ∈ late

/-- Every event file of a watched queue has something that will make it seen. -/
structure Covered (late : List Nat) (k : Kernel) (l : List Watch) (todo : List Task)
    (ws : List Worker) : Prop where
  ready : ∀ q wd name, Watches l q wd → k.filter.Holds q name →
    Awake late k l todo wd ∨ ∃ w ∈ ws, w.qName = q ∧ w.pc.WillMove name
  events : ∀ q wd name, Watches l q wd → k.uevent.Holds q name →
    Awake late k l todo wd ∨ wd ∈ k.pipe ∨ ∃ w ∈ ws, w.qName = q ∧ w.pc.dead = false

section
variable {late : List Nat} {k k' : Kernel} {l l' : List Watch} {todo todo' : List Task}
  {ws ws' : List Worker}

theorem Wired.eq_of_wd (h : Wired k l todo ws) {r r' : Watch} (hr : r ∈ l) (hr' : r' ∈ l)
    (hwd : r.qWatchfd = r'.qWatchfd) : r = r' :=
  inj_on_of_nodup_map (List.Nodup.of_append_left h.wds) hr hr' hwd

variable {q : String} {wd : Nat}

/-- One queue name belongs to one descriptor: both watches are on the directory's inode. -/
theorem Kernel.Watched.wd_inj (hn : (k.watches.map (·.ino)).Nodup) {wd' : Nat}
    (h : k.Watched q wd) (h' : k.Watched q wd') : wd = wd' := by
  obtain ⟨ino, hino, hw⟩ := h
  obtain ⟨ino', hino', hw'⟩ := h'
  cases hino.symm.trans hino'
  have heq : (⟨wd, ino, evQueueMask⟩ : InotifyWatch) = ⟨wd', ino, evQueueMask⟩ :=
    inj_on_of_nodup_map hn hw hw' rfl
  exact congrArg InotifyWatch.wd heq

theorem Kernel.Watched.mono (h : k.Watched q wd)
    (hdirs : ∀ q ino, k.filter.inoOf q = some ino → k'.filter.inoOf q = some ino)
    (hw : k.watches ⊆ k'.watches) : k'.Watched q wd := by
  obtain ⟨ino, hino, hmem⟩ := h
  exact ⟨ino, hdirs q ino hino, hw hmem⟩

theorem Watches.of_map (hmap : l'.map Watch.key = l.map Watch.key) (h : Watches l' q wd) :
    Watches l q wd := by
  obtain ⟨r, hr, hkey⟩ := h
  have hin : r.key ∈ l.map Watch.key := hmap ▸ mem_map_of_mem hr
  obtain ⟨v, hv, heq⟩ := mem_map.1 hin
  simp only [Watch.key, Prod.mk.injEq] at heq
  exact ⟨v, hv, heq.1 ▸ hkey.1, heq.2.1 ▸ hkey.2.1, heq.2.2 ▸ hkey.2.2⟩

/-! ## The wiring survives each kind of change -/

theorem Wired.of_evolves (h : Wired k l todo ws) (he : k.Evolves k') : Wired k' l todo ws := by
  have hw : ∀ q wd, k.Watched q wd → k'.Watched q wd := fun q wd hw =>
    hw.mono he.dirs (he.watches ▸ List.Subset.refl _)
  exact
    { orphans := he.orphans.trans h.orphans
      kinds := fun ev hev => (he.kinds ev hev).elim (h.kinds ev) id
      inos := he.watches ▸ h.inos
      tasks := fun t ht => (h.tasks t ht).mono hw
      wds := h.wds
      fresh := fun wd hwd => he.nextWd ▸ h.fresh wd hwd
      queues := fun q wd hq => hw q wd (h.queues q wd hq)
      workers := h.workers
      pids := h.pids }

theorem Wired.of_todo (h : Wired k l todo ws)
    (hsub : (todo'.filterMap Task.wfd).Sublist (todo.filterMap Task.wfd))
    (hok : ∀ t ∈ todo', t ∈ todo ∨ t.Ok k) : Wired k l todo' ws :=
  { h with
    tasks := fun t ht => (hok t ht).elim (h.tasks t) id
    wds := h.wds.sublist (hsub.append_left _)
    fresh := fun wd hwd => h.fresh wd ((hsub.append_left _).subset hwd) }

theorem Wired.of_list (h : Wired k l todo ws) (hmap : l'.map Watch.key = l.map Watch.key) :
    Wired k l' todo ws := by
  have hwds : l'.map (·.qWatchfd) = l.map (·.qWatchfd) := by
    simpa [Function.comp_def, Watch.key] using congrArg (map fun x => x.2.2) hmap
  exact { h with
      wds := hwds ▸ h.wds
      fresh := hwds ▸ h.fresh
      queues := fun q wd hq => h.queues q wd (hq.of_map hmap)
      workers := fun w hw => (h.workers w hw).of_map hmap.symm }

theorem Wired.of_workers (h : Wired k l todo ws) (hsub : ∀ w ∈ ws', Watches l w.qName w.qWatchfd)
    (hpids : (ws'.map (·.pid)).Nodup) : Wired k l todo ws' :=
  { h with workers := hsub, pids := hpids }

/-- `inotify_add_watch` gives a new descriptor. -/
theorem Wired.addWatch {base : Base} {mask : List EvKind} {kind : WatchKind}
    {ino : Nat} (h : Wired k l (.watchPath base name mask kind :: todo) ws)
    (hstat : k.stat base name = some ino) (hnew : k.watches.any (·.ino == ino) = false) :
    Wired { k with watches := ⟨k.nextWd, ino, mask⟩ :: k.watches, nextWd := k.nextWd + 1 } l
      (.watchAdd base name k.nextWd kind :: todo) ws := by
  have hw : ∀ q wd, k.Watched q wd → Kernel.Watched
      { k with watches := ⟨k.nextWd, ino, mask⟩ :: k.watches, nextWd := k.nextWd + 1 } q wd :=
    fun q wd hw => hw.mono (fun _ _ h => h) (subset_cons_self _ _)
  obtain ⟨hok, htasks⟩ := forall_mem_cons.1 h.tasks
  have hlt : ∀ wd ∈ l.map (·.qWatchfd) ++ todo.filterMap Task.wfd, wd < k.nextWd := h.fresh
  refine ⟨h.orphans, h.kinds, nodup_cons.2 ⟨fun hin => ?_, h.inos⟩,
    forall_mem_cons.2 ⟨fun hk => ?_, fun t ht => (htasks t ht).mono hw⟩, ?_, ?_,
    fun q wd hq => hw q wd (h.queues q wd hq), h.workers, h.pids⟩
  · obtain ⟨w, hw, heq⟩ := mem_map.1 hin
    have := any_eq_false.1 hnew w hw
    exact this (by simpa using heq)
  · obtain ⟨rfl, hdot, rfl⟩ := hok hk
    refine ⟨rfl, hdot, ino, ?_, mem_cons_self ..⟩
    simpa [Kernel.stat, hdot, QueueTree.inoOf] using hstat
  · refine nodup_middle.2 (nodup_cons.2 ⟨fun hin => ?_, h.wds⟩)
    exact absurd (hlt _ hin) (Nat.lt_irrefl _)
  · intro wd hwd
    rcases mem_cons.1 (perm_middle.subset hwd) with rfl | hwd
    · exact Nat.lt_succ_self _
    · exact Nat.lt_succ_of_lt (hlt wd hwd)

/-- The rest of `watch_path` puts the watch into the list. -/
theorem Wired.addRecord {base : Base} {wfd : Nat} {r : Watch}
    (h : Wired k l (.watchAdd base name wfd r.kind :: todo) ws) (hname : r.qName = name)
    (hwd : r.qWatchfd = wfd) : Wired k (r :: l) todo ws := by
  obtain ⟨hok, htasks⟩ := forall_mem_cons.1 h.tasks
  have hperm : List.Perm ((r :: l).map (·.qWatchfd) ++ todo.filterMap Task.wfd)
      (l.map (·.qWatchfd) ++ (Task.watchAdd base name wfd r.kind :: todo).filterMap Task.wfd) := by
    rw [map_cons, cons_append, hwd]
    exact perm_middle.symm
  refine { h with
    tasks := htasks
    wds := hperm.nodup_iff.2 h.wds
    fresh := fun wd hin => h.fresh wd (hperm.subset hin)
    queues := ?_
    workers := fun w hw => ?_ }
  · rintro q wd ⟨v, hv, hk, rfl, rfl⟩
    rcases mem_cons.1 hv with rfl | hv
    · rw [hname, hwd]
      exact (hok hk).2.2
    · exact h.queues _ _ ⟨v, hv, hk, rfl, rfl⟩
  · obtain ⟨v, hv, hkey⟩ := h.workers w hw
    exact ⟨v, mem_cons_of_mem _ hv, hkey⟩

/-! ## The cover survives each kind of change -/

/-- No watch appears, nothing that keeps a queue awake goes away, no file appears that does not wake
its queue, and no worker that runs disappears. -/
theorem Covered.mono {late' : List Nat} (h : Covered late k l todo ws)
    (hw : ∀ q wd, Watches l' q wd → Watches l q wd)
    (ha : ∀ q wd, Watches l' q wd → Awake late k l todo wd → Awake late' k' l' todo' wd)
    (hp : ∀ wd ∈ k.pipe, wd ∈ k'.pipe ∨ ∀ q, Watches l' q wd → Awake late' k' l' todo' wd)
    (hf : ∀ q name, k'.filter.Holds q name → k.filter.Holds q name ∨ ∀ wd, Watches l' q wd →
      Awake late' k' l' todo' wd)
    (hu : ∀ q name, k'.uevent.Holds q name → k.uevent.Holds q name)
    (hws : ∀ w ∈ ws, w.pc.dead = false → w ∈ ws') : Covered late' k' l' todo' ws' where
  ready q wd name hq hfile := by
    rcases hf q name hfile with hfile | hawake
    · rcases h.ready q wd name (hw q wd hq) hfile with hawake | ⟨w, hin, hname, hmove⟩
      · exact .inl (ha q wd hq hawake)
      · exact .inr ⟨w, hws w hin hmove.alive, hname, hmove⟩
    · exact .inl (hawake wd hq)
  events q wd name hq hfile := by
    rcases h.events q wd name (hw q wd hq) (hu q name hfile) with
      hawake | hpipe | ⟨w, hin, hname, hd⟩
    · exact .inl (ha q wd hq hawake)
    · rcases hp wd hpipe with hpipe | hawake
      · exact .inr (.inl hpipe)
      · exact .inl (hawake q hq)
    · exact .inr (.inr ⟨w, hws w hin hd, hname, hd⟩)

theorem Covered.of_evolves (h : Covered late k l todo ws) (hwired : Wired k l todo ws)
    (he : k.Evolves k') : Covered late k' l todo ws := by
  refine h.mono (fun _ _ h => h) ?_ (fun wd hwd => .inl (he.pipe ▸ hwd)) ?_ he.events fun _ h _ => h
  · rintro q wd - (hd | ⟨ev, hev, hwd⟩ | ht | hl)
    · exact .inl hd
    · exact .inr (.inl ⟨ev, he.keeps ev hev, hwd⟩)
    · exact .inr (.inr (.inl ht))
    · exact .inr (.inr (.inr hl))
  · intro q name hfile
    refine (he.ready q name hfile).imp_right fun hev wd hq => ?_
    exact .inr (.inl (hev hwired.inos wd (hwired.queues q wd hq)))

theorem Covered.of_todo (h : Covered late k l todo ws)
    (hev : ∀ ev, Task.event ev ∈ todo → Task.event ev ∈ todo') : Covered late k l todo' ws := by
  refine h.mono (fun _ _ h => h) ?_ (fun _ h => .inl h) (fun _ _ h => .inl h) (fun _ _ h => h)
    fun _ h _ => h
  rintro q wd - (hd | hk | ⟨ev, ht, hwd⟩ | hl)
  · exact .inl hd
  · exact .inr (.inl hk)
  · exact .inr (.inr (.inl ⟨ev, hev ev ht, hwd⟩))
  · exact .inr (.inr (.inr hl))

/-- Another list of the same watches, in which what was flagged or just taken is flagged. -/
theorem Covered.of_list {late' : List Nat} (h : Covered late k l todo ws)
    (hmap : l'.map Watch.key = l.map Watch.key) (hd : ∀ wd, Dirty l wd → Dirty l' wd)
    (hlate : ∀ q, ∀ wd ∈ late, Watches l q wd → Dirty l' wd ∨ wd ∈ late') :
    Covered late' k l' todo ws := by
  refine h.mono (fun q wd hq => hq.of_map hmap) ?_ (fun _ h => .inl h) (fun _ _ h => .inl h)
    (fun _ _ h => h) fun _ h _ => h
  rintro q wd hq (hdirty | hk | ht | hl)
  · exact .inl (hd wd hdirty)
  · exact .inr (.inl hk)
  · exact .inr (.inr (.inl ht))
  · rcases hlate q wd hl (hq.of_map hmap) with hdirty | hl
    · exact .inl hdirty
    · exact .inr (.inr (.inr hl))

/-- The invariant: the wiring and the cover. -/
def Kept (late : List Nat) (k : Kernel) (l : List Watch) (todo : List Task) (ws : List Worker) :
    Prop :=
  Wired k l todo ws ∧ Covered late k l todo ws

namespace Kept

theorem of_evolves (h : Kept late k l todo ws) (he : k.Evolves k') : Kept late k' l todo ws :=
  ⟨h.1.of_evolves he, h.2.of_evolves h.1 he⟩

theorem pop {t : Task} (h : Kept late k l (t :: todo) ws) (ht : ∀ ev, t ≠ .event ev) :
    Kept late k l todo ws := by
  refine ⟨h.1.of_todo ((sublist_cons_self t todo).filterMap _) ?_, h.2.of_todo fun ev hev => ?_⟩
  · exact fun t' ht' => .inl (mem_cons_of_mem _ ht')
  · exact (mem_cons.1 hev).resolve_left fun heq => ht ev heq.symm

theorem push {ts : List Task} (h : Kept late k l todo ws) (hts : ∀ t ∈ ts, t.Ok k ∧ t.wfd = none) :
    Kept late k l (ts ++ todo) ws := by
  have hnil : ts.filterMap Task.wfd = [] := filterMap_eq_nil_iff.2 fun t ht => (hts t ht).2
  refine ⟨h.1.of_todo ?_ fun t ht => ?_, h.2.of_todo fun ev hev => mem_append_right _ hev⟩
  · rw [filterMap_append, hnil, nil_append]
  · rcases mem_append.1 ht with ht | ht
    · exact .inr (hts t ht).1
    · exact .inl ht

end Kept

variable {t : Table} {sel : Watch → Bool}

theorem Dirty.mark (h : Dirty t.watchList wd) : Dirty (t.markQueueDirty sel).watchList wd := by
  obtain ⟨r, hr, hwd, hd⟩ := h
  unfold Table.markQueueDirty
  split
  · exact ⟨r, hr, hwd, hd⟩
  · split
    · exact ⟨r, hr, hwd, hd⟩
    · rcases mem_modifyFirst_of_mem (p := sel) (f := ({ · with dirty := true })) hr with
        hr | ⟨-, hr⟩
      · exact ⟨r, hr, hwd, hd⟩
      · exact ⟨_, hr, hwd, rfl⟩

theorem dirty_mark_of_find {p : Watch}
    (h : t.watchList.find? sel = some p) : Dirty (t.markQueueDirty sel).watchList p.qWatchfd := by
  unfold Table.markQueueDirty
  simp only [h]
  split
  · next hd => exact ⟨p, mem_of_find?_eq_some h, rfl, hd⟩
  · exact ⟨_, modifyFirst_find h, rfl, rfl⟩

theorem Dirty.of_map (hmap : l'.map (fun r => (r.qWatchfd, r.dirty)) =
    l.map fun r => (r.qWatchfd, r.dirty)) (h : Dirty l wd) : Dirty l' wd := by
  obtain ⟨r, hr, hwd, hd⟩ := h
  have hin : (r.qWatchfd, r.dirty) ∈ l'.map fun r => (r.qWatchfd, r.dirty) :=
    hmap ▸ mem_map_of_mem hr
  obtain ⟨v, hv, heq⟩ := mem_map.1 hin
  simp only [Prod.mk.injEq] at heq
  exact ⟨v, hv, heq.1.trans hwd, heq.2.trans hd⟩

theorem Kept.mark (h : Kept late k t.watchList todo ws)
    (hlate : ∀ q, ∀ wd ∈ late, Watches t.watchList q wd →
      ∃ p, t.watchList.find? sel = some p ∧ p.qWatchfd = wd) :
    Kept [] k (t.markQueueDirty sel).watchList todo ws := by
  have hmap : (t.markQueueDirty sel).watchList.map Watch.key = t.watchList.map Watch.key :=
    Table.map_markQueueDirty fun _ => rfl
  refine ⟨h.1.of_list hmap, h.2.of_list hmap (fun wd hd => hd.mark) fun q wd hl hq => ?_⟩
  obtain ⟨p, hp, rfl⟩ := hlate q wd hl hq
  exact .inl (dirty_mark_of_find hp)

end

end MakeInitrd.Ueventd
