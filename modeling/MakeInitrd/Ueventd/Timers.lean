import MakeInitrd.Ueventd.Files

/-!
# A call of `update_timerfd`

The daemon alone runs the tasks of one call: the two loops over the timer directories, and for every
timer that is due `move_timer_event`, which may make and watch a queue directory before it renames
the file. `Returns n Q` says that all runs of the daemon come back to a stack of `n` tasks, and `Q`
holds there; system calls that the code takes for fatal are taken to succeed. `timers_rule` is the
rule for the two loops.
-/

namespace MakeInitrd.Ueventd

open List

/-- A step of the daemon with a system call that does not fail. -/
def Calls (_ : Sys) (l : Label) : Prop :=
  ∃ c, l = .daemon c ∧ c ≠ .fail

/-- All runs of the daemon get to a stack of at most `n` tasks, and `Q` holds there. -/
def Returns (n : Nat) (Q : Sys → Prop) : Sys → Prop :=
  system.Ends Calls (fun s => s.d.todo.length ≤ n) Q

section
variable {s s' : Sys} {n m : Nat} {P Q : Sys → Prop} {t : Task} {rest : List Task} {c : Choice}
  {q name : String}

namespace Returns

theorem done (h : s.d.todo.length ≤ n) (hQ : Q s) : Returns n Q s :=
  .ended h hQ

/-- The runs go through the states in which the stack has `m` tasks. -/
theorem seq (h : Returns m P s) (hnm : n ≤ m) (hP : ∀ s, P s → Returns n Q s) : Returns n Q s :=
  h.bind (fun _ ho => Nat.le_trans ho hnm) fun s _ => hP s

theorem mono (h : Returns n P s) (hP : ∀ s, P s → Q s) : Returns n Q s :=
  Lts.Ends.mono h fun s _ => hP s

theorem task (hrun : s.d.status = .running) (ht : s.d.todo = t :: rest) (hn : n ≤ rest.length)
    (hex : ∃ c s', c ≠ .fail ∧ runTask { s with d.todo := rest } c t = some s')
    (hall : ∀ c s', c ≠ .fail → runTask { s with d.todo := rest } c t = some s' → Returns n Q s') :
    Returns n Q s := by
  have hstep (c : Choice) : system.step s (.daemon c) = runTask { s with d.todo := rest } c t := by
    show daemonStep s c = _
    simp only [daemonStep, hrun, ne_eq, not_true_eq_false, if_false]
    rw [ht]
  refine .step (by rw [ht, length_cons]; omega) ?_ ?_
  · obtain ⟨c, s', hc, hs⟩ := hex
    exact ⟨.daemon c, s', ⟨c, rfl, hc⟩, (hstep c).trans hs⟩
  · rintro _ s' ⟨c, rfl, hc⟩ hs
    exact hall c s' hc ((hstep c).symm.trans hs)

theorem of_eq {u : Sys} (hrun : s.d.status = .running) (ht : s.d.todo = t :: rest)
    (hn : n ≤ rest.length)
    (h : ∀ c, c ≠ .fail → runTask { s with d.todo := rest } c t = some u) (hr : Returns n Q u) :
    Returns n Q s := by
  refine task hrun ht hn ⟨.go, u, nofun, h _ nofun⟩ fun c s₁ hc hs => ?_
  rw [h c hc] at hs
  exact Option.some.inj hs ▸ hr

end Returns

/-! ## `ensure_queue_dir` -/

/-- What the watches stand for: every queue watch is one of the inotify instance for an existing
queue directory, and every watch of the inotify instance is for an inode that exists. -/
structure Live (s : Sys) : Prop where
  queues : ∀ w ∈ s.d.tab.watchList, w.kind = .queueDir → s.k.Watched w.qName w.qWatchfd
  inodes : ∀ w ∈ s.k.watches, s.k.freshIno w.ino = false

/-- The directory that `ensure_queue_dir` makes in a queue directory. -/
def tmpDir : Dirent :=
  ⟨0, ".tmp", .dir⟩

/-- The queue directory of that name may come into being with its `.tmp`, and be watched; all else
is as it was. -/
structure Opened (q : String) (s s' : Sys) : Prop where
  status : s'.d.status = s.d.status
  next : s'.d.next = s.d.next
  timer : s'.k.timer = s.k.timer
  uevent : s'.k.uevent = s.k.uevent
  pause : s'.k.pause = s.k.pause
  others : s'.k.filter.others = s.k.filter.others
  lookup : ∀ q', q' ≠ q → s'.k.filter.lookup q' = s.k.filter.lookup q'
  still : (s.k.filter.lookup q).isSome = true → (s'.k.filter.lookup q).isSome = true
  keeps : ∀ q' e, s.k.filter.Has q' e → s'.k.filter.Has q' e
  brings : ∀ q' e, s'.k.filter.Has q' e → s.k.filter.Has q' e ∨ q' = q ∧ e = tmpDir
  watches : ∀ w ∈ s.d.tab.watchList, w ∈ s'.d.tab.watchList
  live : Live s → Live s'

namespace Opened

variable {s₁ : Sys}

theorem refl (q : String) (s : Sys) : Opened q s s :=
  ⟨rfl, rfl, rfl, rfl, rfl, rfl, fun _ _ => rfl, fun h => h, fun _ _ h => h, fun _ _ h => .inl h,
    fun _ h => h, fun h => h⟩

theorem trans (h : Opened q s s₁) (h' : Opened q s₁ s') : Opened q s s' where
  status := h'.status.trans h.status
  next := h'.next.trans h.next
  timer := h'.timer.trans h.timer
  uevent := h'.uevent.trans h.uevent
  pause := h'.pause.trans h.pause
  others := h'.others.trans h.others
  lookup q' hq := (h'.lookup q' hq).trans (h.lookup q' hq)
  still hq := h'.still (h.still hq)
  keeps q' e he := h'.keeps q' e (h.keeps q' e he)
  brings q' e he := (h'.brings q' e he).elim (h.brings q' e) .inr
  watches w hw := h'.watches w (h.watches w hw)
  live hl := h'.live (h.live hl)

theorem of_todo (h : Opened q s s') (ts ts' : List Task) :
    Opened q { s with d.todo := ts } { s' with d.todo := ts' } :=
  ⟨h.status, h.next, h.timer, h.uevent, h.pause, h.others, h.lookup, h.still, h.keeps,
    h.brings, h.watches,
    fun hl => ⟨(h.live ⟨hl.queues, hl.inodes⟩).queues, (h.live ⟨hl.queues, hl.inodes⟩).inodes⟩⟩

end Opened

theorem inos_modify (t : QueueTree) {f : Dir → Dir} (hf : ∀ d, (f d).ino = d.ino) :
    (t.modify q f).inos = t.inos := by
  simp only [QueueTree.inos, QueueTree.modify, map_map]
  congr 1
  refine map_congr_left fun p _ => ?_
  simp only [Function.comp_apply]
  split
  · exact hf p.2
  · rfl

theorem mem_inos_mkdir (t : QueueTree) (i ino : Nat) {n : Nat} (h : n ∈ t.inos) :
    n ∈ (t.mkdir i q ino).inos := by
  simp only [QueueTree.inos, QueueTree.mkdir, map_append, map_cons, mem_cons, mem_append, map_take,
    map_drop] at h ⊢
  rcases h with h | h
  · exact .inl h
  · rw [← take_append_drop i (t.dirs.map (·.2.ino)), mem_append] at h
    exact .inr (h.imp_right .inr)

variable {ino : Nat}

theorem mem_inos_of_inoOf {t : QueueTree} (h : t.inoOf q = some ino) : ino ∈ t.inos := by
  obtain ⟨d, hd, rfl⟩ := Option.map_eq_some_iff.1 h
  obtain ⟨p, hp, rfl⟩ := Option.map_eq_some_iff.1 hd
  exact mem_cons_of_mem _ (mem_map_of_mem (mem_of_find?_eq_some hp))

theorem freshIno_eq_false {k : Kernel} :
    k.freshIno ino = false ↔ ino ∈ k.pause.ino :: (k.filter.inos ++ k.timer.inos ++ k.orphans) := by
  rw [Kernel.freshIno, decide_eq_false_iff_not, not_not]

theorem makeQueue_eq (k : Kernel) (i : Nat) (q : String) (ino : Nat) :
    ∃ evs, k.makeQueue i q ino = { k with filter := k.filter.mkdir i q ino, inotify := evs } :=
  Kernel.notify_eq _ _ _ _

theorem exists_freshIno (k : Kernel) : ∃ ino, k.freshIno ino = true := by
  obtain ⟨ino, hino⟩ := Infinite.exists_notMem_finset
    (k.pause.ino :: (k.filter.inos ++ k.timer.inos ++ k.orphans)).toFinset
  exact ⟨ino, by simpa [Kernel.freshIno] using hino⟩

theorem Opened.makeQueue (h : s.k.filter.lookup q = none) (ino : Nat) :
    Opened q s { s with k := s.k.makeQueue 0 q ino } := by
  obtain ⟨evs, heq⟩ := makeQueue_eq s.k 0 q ino
  rw [heq]
  refine ⟨rfl, rfl, rfl, rfl, rfl, rfl, fun q' hq => QueueTree.lookup_mkdir_of_ne hq,
    fun hq => ?_, ?_, ?_,
    fun _ hw => hw, ?_⟩
  · simp [h] at hq
  · rintro q' e ⟨d, hd, he⟩
    have hq : q' ≠ q := by
      rintro rfl
      simp [h] at hd
    exact ⟨d, (QueueTree.lookup_mkdir_of_ne hq).trans hd, he⟩
  · exact fun q' e he => .inl (QueueTree.Has.of_mkdir h he)
  · intro hl
    refine ⟨fun w hw hk => ?_, fun w hw => ?_⟩
    · obtain ⟨n, hn, hmem⟩ := hl.queues w hw hk
      exact ⟨n, QueueTree.inoOf_mkdir h hn, hmem⟩
    · have hw := freshIno_eq_false.1 (hl.inodes w hw)
      refine freshIno_eq_false.2 ?_
      simp only [mem_cons, mem_append] at hw ⊢
      rcases hw with hw | (hw | hw) | hw
      · exact .inl hw
      · exact .inr (.inl (.inl (mem_inos_mkdir _ 0 ino hw)))
      · exact .inr (.inl (.inr hw))
      · exact .inr (.inr hw)

variable {d : Dir}

theorem mem_put_iff {ent e : Dirent} (hnew : d.find ent.dName = none) :
    e ∈ (d.put 0 ent).ents ↔ e = ent ∨ e ∈ d.ents := by
  have hrm : (d.remove ent.dName).ents = d.ents := by
    refine filter_eq_self.2 fun x hx => ?_
    have := find?_eq_none.1 hnew x hx
    simpa using this
  simp [Dir.put, hrm]

theorem Opened.makeTmp (hd : s.k.filter.lookup q = some d) (hnew : d.find ".tmp" = none) :
    Opened q s { s with k.filter := s.k.filter.modify q (·.put 0 tmpDir) } := by
  have hino (d : Dir) : (d.put 0 tmpDir).ino = d.ino := rfl
  refine ⟨rfl, rfl, rfl, rfl, rfl, rfl, fun q' hq => ?_, fun _ => ?_, ?_, ?_, fun _ hw => hw, ?_⟩
  · rw [QueueTree.lookup_modify, if_neg hq]
    exact Option.map_id_apply
  · simp [QueueTree.lookup_modify, hd]
  · rintro q' e ⟨d', hd', he⟩
    refine ⟨_, by rw [QueueTree.lookup_modify, hd']; rfl, ?_⟩
    by_cases hq : q' = q
    · subst hq
      obtain rfl : d = d' := Option.some.inj (hd.symm.trans hd')
      rw [if_pos rfl]
      exact (mem_put_iff hnew).2 (.inr he)
    · rwa [if_neg hq]
  · exact fun q' e he => QueueTree.Has.of_put he
  · intro hl
    refine ⟨fun w hw hk => ?_, fun w hw => ?_⟩
    · obtain ⟨n, hn, hmem⟩ := hl.queues w hw hk
      exact ⟨n, (QueueTree.inoOf_modify hino).trans hn, hmem⟩
    · have hw := freshIno_eq_false.1 (hl.inodes w hw)
      refine freshIno_eq_false.2 ?_
      show w.ino ∈ s.k.pause.ino :: ((s.k.filter.modify q _).inos ++ s.k.timer.inos ++ s.k.orphans)
      rwa [inos_modify _ hino]

theorem Opened.watch (hino : s.k.filter.inoOf q = some ino) (isEmpty timer : Bool) :
    Opened q s { s with
      k.watches := ⟨s.k.nextWd, ino, evQueueMask⟩ :: s.k.watches
      k.nextWd := s.k.nextWd + 1
      d.tab := s.d.tab.register q s.k.nextWd ino .queueDir isEmpty
      d.timerChanged := timer } := by
  refine ⟨rfl, rfl, rfl, rfl, rfl, rfl, fun _ _ => rfl, fun h => h, fun _ _ h => h,
    fun _ _ h => .inl h,
    fun w hw => mem_cons_of_mem _ hw, ?_⟩
  intro hl
  refine ⟨fun w hw hk => ?_, fun w hw => ?_⟩
  · rcases mem_cons.1 hw with rfl | hw
    · exact ⟨ino, hino, mem_cons_self⟩
    · obtain ⟨n, hn, hmem⟩ := hl.queues w hw hk
      exact ⟨n, hn, mem_cons_of_mem _ hmem⟩
  · rcases mem_cons.1 hw with rfl | hw
    · refine freshIno_eq_false.2 (mem_cons_of_mem _ ?_)
      exact mem_append_left _ (mem_append_left _ (mem_inos_of_inoOf hino))
    · exact hl.inodes w hw

/-- `watch_path` comes back with a watch for the queue. -/
theorem watchPath_returns (hrun : s.d.status = .running)
    (ht : s.d.todo = .watchPath .filter q evQueueMask .queueDir :: rest) (hdot : q ≠ ".")
    (hd : s.k.filter.lookup q = some d) :
    Returns rest.length (fun s' => s'.d.todo = rest ∧ Opened q s s' ∧
      (s.k.watches.any (·.ino == d.ino) = false → (findQueueWatch s'.d.tab.watchList q).isSome =
        true)) s := by
  have hstat : s.k.stat .filter q = some d.ino := by simp [Kernel.stat, hdot, hd]
  by_cases hany : s.k.watches.any (·.ino == d.ino) = true
  · refine .of_eq (u := { s with d.todo := rest }) hrun ht (Nat.le_refl _) (fun c hc => ?_) ?_
    · simp only [runTask, if_neg hc, hstat, hany, if_true]
    · exact .done (Nat.le_refl _) ⟨rfl, (Opened.refl q s).of_todo _ _,
        fun h => absurd (hany.symm.trans h) (by decide)⟩
  · let s₁ : Sys := { s with
      k.watches := ⟨s.k.nextWd, d.ino, evQueueMask⟩ :: s.k.watches
      k.nextWd := s.k.nextWd + 1
      d.todo := .watchAdd .filter q s.k.nextWd .queueDir :: rest }
    have hstat₁ : s₁.k.stat .filter q = some d.ino := hstat
    have hino : s.k.filter.inoOf q = some d.ino := by simp [QueueTree.inoOf, hd]
    refine .of_eq (u := s₁) hrun ht (Nat.le_refl _) (fun c hc => ?_) ?_
    · simp only [runTask, if_neg hc, hstat, hany, Bool.false_eq_true, if_false]
      rfl
    · refine .of_eq (s := s₁) hrun rfl (Nat.le_refl _)
        (fun c hc => by simp only [runTask, hstat₁]; rfl) ?_
      refine .done (Nat.le_refl _) ⟨rfl, (Opened.watch hino _ _).of_todo s.d.todo rest, fun _ => ?_⟩
      simp [findQueueWatch, Table.register, isQueueWatch]

/-- The part of `ensure_queue_dir` after the queue directory exists. -/
theorem ensureTmp_returns (hrun : s.d.status = .running) (ht : s.d.todo = .ensureTmp q :: rest)
    (hdot : q ≠ ".") (hd : s.k.filter.lookup q = some d) :
    Returns rest.length (fun s' => s'.d.todo = rest ∧ Opened q s s' ∧
      (s'.k.filter.lookup q).isSome = true ∧
      ((findQueueWatch s.d.tab.watchList q).isSome = true ∨
        s.k.watches.any (·.ino == d.ino) = false →
        (findQueueWatch s'.d.tab.watchList q).isSome = true)) s := by
  -- The queue directories after the `mkdir` of `.tmp`.
  obtain ⟨f₁, d₁, htask, hopen, hd₁, hino⟩ : ∃ (f₁ : QueueTree) (d₁ : Dir),
      (∀ c, runTask { s with d.todo := rest } c (.ensureTmp q) =
        some (if (findQueueWatch s.d.tab.watchList q).isSome then
          { s with k.filter := f₁, d.todo := rest }
          else { s with
            k.filter := f₁
            d.todo := .watchPath .filter q evQueueMask .queueDir :: rest })) ∧
      Opened q s { s with k.filter := f₁ } ∧ f₁.lookup q = some d₁ ∧ d₁.ino = d.ino := by
    cases htmp : d.find ".tmp" with
    | some e =>
      exact ⟨s.k.filter, d, fun c => by simp only [runTask, hd, htmp]; rfl, .refl q s, hd, rfl⟩
    | none =>
      refine ⟨_, d.put 0 tmpDir, fun c => by
        simp only [runTask, hd, htmp]; rfl, .makeTmp hd htmp, ?_, rfl⟩
      rw [QueueTree.lookup_modify, hd, if_pos rfl]
      rfl
  by_cases hfind : (findQueueWatch s.d.tab.watchList q).isSome = true
  · refine .of_eq hrun ht (Nat.le_refl _) (fun c _ => (htask c).trans (by rw [if_pos hfind])) ?_
    exact .done (Nat.le_refl _) ⟨rfl, hopen.of_todo s.d.todo rest, by simp [hd₁], fun _ => hfind⟩
  · refine .of_eq hrun ht (Nat.le_refl _) (fun c _ => (htask c).trans (by rw [if_neg hfind])) ?_
    refine (watchPath_returns (s := { s with
      k.filter := f₁
      d.todo := .watchPath .filter q evQueueMask .queueDir :: rest }) hrun rfl hdot hd₁).mono
        fun s' ⟨htodo, hopen', hw⟩ => ?_
    refine ⟨htodo, hopen.trans (hopen'.of_todo s.d.todo s'.d.todo), ?_, fun h => hw ?_⟩
    · exact hopen'.still (by simp [hd₁])
    · rw [hino]
      exact h.resolve_left hfind

/-- `ensure_queue_dir`: the queue directory exists afterwards, and it is watched if the watches of
the existing ones are in order. -/
theorem ensureQueueDir_returns (hrun : s.d.status = .running)
    (ht : s.d.todo = .ensureQueueDir q :: rest)
    (hdot : q ≠ ".") (hothers : s.k.filter.others.any (·.dName == q) = false) :
    Returns rest.length (fun s' => s'.d.todo = rest ∧ Opened q s s' ∧
      (s'.k.filter.lookup q).isSome = true ∧
      (Live s → ((s.k.filter.lookup q).isSome = true →
        (findQueueWatch s.d.tab.watchList q).isSome = true) →
        (findQueueWatch s'.d.tab.watchList q).isSome = true)) s := by
  cases hd : s.k.filter.lookup q with
  | some d =>
    let s₁ : Sys := { s with d.todo := .ensureTmp q :: rest }
    refine .of_eq (u := s₁) hrun ht (Nat.le_refl _) (fun c _ => by simp [runTask, hd]; rfl) ?_
    refine (ensureTmp_returns (s := s₁) hrun rfl hdot hd).mono ?_
    rintro s' ⟨htodo, hopen, hsome, hw⟩
    exact ⟨htodo, hopen.of_todo s.d.todo s'.d.todo, hsome,
      fun _ hall => hw (.inl (hall (by simp)))⟩
  | none =>
    refine .task hrun ht (Nat.le_refl _) ?_ fun c s₁ hc hs => ?_
    · obtain ⟨ino, hino⟩ := exists_freshIno s.k
      exact ⟨.ino ino, _, nofun, by simp only [runTask, hd, hothers]; simp only [hino]; rfl⟩
    · obtain ⟨ino, hfresh, rfl⟩ : ∃ ino, s.k.freshIno ino = true ∧
          s₁ = { s with k := s.k.makeQueue 0 q ino, d.todo := .ensureTmp q :: rest } := by
        simp only [runTask, hd, hothers, Option.isSome_none, Bool.or_self, Bool.false_eq_true,
          if_false] at hs
        split at hs
        · next ino =>
          split at hs
          · next hfresh => exact ⟨ino, hfresh, (Option.some.inj hs).symm⟩
          · cases hs
        · exact absurd rfl hc
        · cases hs
      have hopen := Opened.makeQueue hd ino
      have hd₁ : (s.k.makeQueue 0 q ino).filter.lookup q = some ⟨ino, []⟩ := by
        obtain ⟨evs, heq⟩ := makeQueue_eq s.k 0 q ino
        rw [heq]
        exact QueueTree.lookup_mkdir_self hd
      have hwatches : (s.k.makeQueue 0 q ino).watches = s.k.watches := by
        obtain ⟨evs, heq⟩ := makeQueue_eq s.k 0 q ino
        rw [heq]
      refine (ensureTmp_returns
        (s := { s with k := s.k.makeQueue 0 q ino, d.todo := .ensureTmp q :: rest }) hrun rfl
        hdot hd₁).mono fun s' ⟨htodo, hopen', hsome, hw⟩ => ?_
      refine ⟨htodo, hopen.trans (hopen'.of_todo s.d.todo s'.d.todo), hsome,
        fun hlive _ => hw (.inr ?_)⟩
      -- The inode number of the new directory is that of no watch.
      show (s.k.makeQueue 0 q ino).watches.any (·.ino == ino) = false
      rw [hwatches, any_eq_false]
      intro w hw heq
      have hused := hlive.inodes w hw
      rw [beq_iff_eq.1 heq, hfresh] at hused
      cases hused

/-- The `rename` takes the file out of the timer directory and puts it, under the name of its event,
into the queue directory. -/
theorem renameTimer_eq {k k' : Kernel} (h : renameTimer k q name = some k') : ∃ ev ent evs,
    eventName name = some ev ∧ (k.timer.lookup q).bind (·.find name) = some ent ∧ k' = { k with
        timer := k.timer.modify q (·.remove name)
        filter := k.filter.modify q (·.put 0 { ent with dName := ev })
        inotify := evs } := by
  simp only [renameTimer, Option.bind_eq_bind, Option.bind_eq_some_iff] at h
  obtain ⟨ev, hev, src, hsrc, ent, hent, dst, hdst, h⟩ := h
  split at h
  · cases h
  · obtain ⟨evs, heq⟩ := Kernel.notify_eq { k with
      timer := k.timer.modify q (·.remove name)
      filter := k.filter.modify q (·.put 0 { ent with dName := ev }) } dst.ino .movedTo ev
    refine ⟨ev, ent, evs, hev, by rw [hsrc]; exact hent, ?_⟩
    rw [← heq]
    exact (Option.some.inj h).symm

/-- What `move_timer_event` does: where the name has no part after a dot nothing, or it makes and
watches the queue directory and renames the file. -/
def Moved (q name : String) (s s' : Sys) : Prop :=
  (eventName name = none ∧ Opened q s s') ∨ ∃ s₁, Opened q s s₁ ∧
    (s₁.k.filter.lookup q).isSome = true ∧
      (Live s → ((s.k.filter.lookup q).isSome = true →
        (findQueueWatch s.d.tab.watchList q).isSome = true) →
        (findQueueWatch s₁.d.tab.watchList q).isSome = true) ∧
      runTask s₁ .go (.renameTimer q name) = some s'

/-- `move_timer_event` comes back. -/
theorem moveTimer_returns (hrun : s.d.status = .running) (ht : s.d.todo = .moveTimer q name :: rest)
    (hdot : q ≠ ".") (hothers : s.k.filter.others.any (·.dName == q) = false) :
    Returns rest.length (fun s' => s'.d.todo = rest ∧ Moved q name s s') s := by
  cases hev : eventName name with
  | none =>
    refine .of_eq (u := { s with d.todo := rest }) hrun ht (Nat.le_refl _)
      (fun c _ => by simp [runTask, hev]) ?_
    exact .done (Nat.le_refl _) ⟨rfl, .inl ⟨hev, (Opened.refl q s).of_todo s.d.todo rest⟩⟩
  | some ev =>
    let s₀ : Sys := { s with d.todo := .ensureQueueDir q :: .renameTimer q name :: rest }
    refine .of_eq (u := s₀) hrun ht (Nat.le_refl _) (fun c _ => by simp [runTask, hev]; rfl) ?_
    refine (ensureQueueDir_returns (s := s₀) hrun rfl hdot hothers).seq (by simp)
      fun s₁ ⟨htodo, hopen, hsome, hw⟩ => ?_
    obtain ⟨s₂, hs₂, htodo₂⟩ :
        ∃ s₂, (∀ c, runTask { s₁ with d.todo := rest } c (.renameTimer q name) = some s₂) ∧
        s₂.d.todo = rest := by
      cases hk : renameTimer s₁.k q name with
      | none => exact ⟨{ s₁ with d.todo := rest }, fun c => by simp only [runTask, hk], rfl⟩
      | some k => exact ⟨_, fun c => by simp only [runTask, hk]; rfl, rfl⟩
    refine .of_eq (hopen.status.trans hrun) htodo (Nat.le_refl _) (fun c _ => hs₂ c) ?_
    refine .done (by rw [htodo₂]) ⟨htodo₂,
      .inr ⟨{ s₁ with d.todo := rest }, ?_, hsome, ?_, hs₂ .go⟩⟩
    · exact hopen.of_todo s.d.todo rest
    · exact fun hlive => hw ⟨hlive.queues, hlive.inodes⟩

end

/-! ## The loops of `update_timerfd` -/

def timerQueues (t : QueueTree) : List String :=
  (t.readdir.filter isSubdir).map (·.dName)

/-- What the inner loop reads from the directory of a queue. -/
def queueEntries (t : QueueTree) (q : String) : List (String × Dirent) :=
  ((t.lookup q).elim [] Dir.readdir).map (q, ·)

/-- What the loops read, in their order. -/
def timerEntries (t : QueueTree) : List (String × Dirent) :=
  (timerQueues t).flatMap (queueEntries t)

section
variable {t : QueueTree} {now : Nat} {I : List (String × Dirent) → Sys → Prop}

/-- The entry with its queue is the next one after `D` that the loops read. -/
def IsNext (t : QueueTree) (D : List (String × Dirent)) (q : String) (ent : Dirent) : Prop :=
  D ++ [(q, ent)] <+: timerEntries t

/-- An invariant of the loops, for the entries `D` read so far. -/
structure TimerInv (t : QueueTree) (now : Nat) (I : List (String × Dirent) → Sys → Prop) :
    Prop where
  todo : ∀ D s ts, I D s → I D { s with d.todo := ts }
  status : ∀ D s, I D s → s.d.status = .running
  /-- A directory is not changed before it is read. -/
  lookup : ∀ D s q, I D s → q ∉ D.map (·.1) → s.k.timer.lookup q = t.lookup q
  entry : ∀ D q ent s ts, IsNext t D q ent → I D s → s.d.todo = .timerEntry now q ent :: ts →
    Returns ts.length (fun s' => s'.d.todo = ts ∧ I (D ++ [(q, ent)]) s') s

variable {q : String} {D : List (String × Dirent)}

theorem TimerInv.inner (h : TimerInv t now I) {ts : List Task} (es : List Dirent) {s : Sys}
    (hnext : D ++ es.map (q, ·) <+: timerEntries t) (hI : I D s)
    (htodo : s.d.todo = es.map (.timerEntry now q) ++ ts) :
    Returns ts.length (fun s' => s'.d.todo = ts ∧ I (D ++ es.map (q, ·)) s') s := by
  induction es generalizing D s with
  | nil => exact .done (by simp [htodo]) ⟨htodo, by simpa using hI⟩
  | cons ent es ih =>
    have hcons : D ++ (ent :: es).map (q, ·) = (D ++ [(q, ent)]) ++ es.map (q, ·) := by simp
    rw [hcons] at hnext ⊢
    refine (h.entry D q ent s _ ((prefix_append _ _).trans hnext) hI htodo).seq (by simp) ?_
    rintro s₁ ⟨htodo₁, hI₁⟩
    exact ih hnext hI₁ htodo₁

/-- The loop over the queues -/
theorem TimerInv.outer (h : TimerInv t now I) {ts : List Task} (qs : List String)
    (hnodup : qs.Nodup) (hsome : ∀ q ∈ qs, (t.lookup q).isSome = true) {s : Sys}
    (hD : ∀ x ∈ D, x.1 ∉ qs) (hnext : D ++ qs.flatMap (queueEntries t) <+: timerEntries t)
    (hI : I D s) (htodo : s.d.todo = qs.map (.timerQueue now) ++ ts) :
    Returns ts.length (fun s' => s'.d.todo = ts ∧ I (D ++ qs.flatMap (queueEntries t)) s') s := by
  induction qs generalizing D s with
  | nil => exact .done (by simp [htodo]) ⟨htodo, by simpa using hI⟩
  | cons q qs ih =>
    obtain ⟨hq, hqs⟩ := nodup_cons.1 hnodup
    obtain ⟨d, hd⟩ := Option.isSome_iff_exists.1 (hsome q mem_cons_self)
    have hlookup : s.k.timer.lookup q = some d := by
      rw [h.lookup D s q hI, hd]
      intro hmem
      obtain ⟨x, hx, hxq⟩ := mem_map.1 hmem
      exact hD x hx (hxq ▸ mem_cons_self)
    have hentries : queueEntries t q = d.readdir.map (q, ·) := by rw [queueEntries, hd]; rfl
    have hcons : D ++ (q :: qs).flatMap (queueEntries t) =
        (D ++ d.readdir.map (q, ·)) ++ qs.flatMap (queueEntries t) := by simp [hentries]
    rw [hcons] at hnext ⊢
    let s₁ : Sys :=
      { s with d.todo := d.readdir.map (.timerEntry now q) ++ (qs.map (.timerQueue now) ++ ts) }
    refine .of_eq (u := s₁) (h.status D s hI) htodo (by simp)
      (fun c _ => by simp only [runTask, hlookup]; rfl) ?_
    refine (h.inner d.readdir ((prefix_append _ _).trans hnext) (h.todo D s _ hI) rfl).seq
      (by simp) ?_
    rintro s₂ ⟨htodo₂, hI₂⟩
    refine ih hqs (fun q hq => hsome q (mem_cons_of_mem _ hq)) ?_ hnext hI₂ htodo₂
    intro x hx
    rcases mem_append.1 hx with hx | hx
    · exact fun hmem => hD x hx (mem_cons_of_mem _ hmem)
    · obtain ⟨e, -, rfl⟩ := mem_map.1 hx
      exact hq

theorem mem_timerEntries {ent : Dirent} : (q, ent) ∈ timerEntries t ↔
    q ∈ timerQueues t ∧ ∃ d, t.lookup q = some d ∧ ent ∈ d.readdir := by
  simp only [timerEntries, mem_flatMap, queueEntries, mem_map, Prod.mk.injEq]
  constructor
  · rintro ⟨q', hq, e, he, rfl, rfl⟩
    cases hd : t.lookup q' with
    | none => simp [hd] at he
    | some d => exact ⟨hq, d, rfl, by simpa [hd] using he⟩
  · rintro ⟨hq, d, hd, he⟩
    exact ⟨q, hq, ent, by simpa [hd] using he, rfl, rfl⟩

theorem IsNext.mem {ent : Dirent} (h : IsNext t D q ent) : (q, ent) ∈ timerEntries t :=
  h.subset (by simp)

/-- A file is kept apart from the directories, and the directories have distinct names. -/
structure QueueTree.WellFormed (t : QueueTree) : Prop where
  names : (t.dirs.map (·.1)).Nodup
  others : ∀ ent ∈ t.others, ent.dType ≠ .dir

theorem timerQueues_eq (h : t.WellFormed) :
    timerQueues t = (t.dirs.map (·.1)).filter fun q => q != "." && q != ".." := by
  have hothers : t.others.filter isSubdir = [] := by
    refine filter_eq_nil_iff.2 fun e he hsub => ?_
    exact h.others e he (by simpa using (Bool.and_eq_true_iff.1 hsub).1)
  have hdirs (l : List (String × Dir)) :
      ((l.map fun p => (⟨p.2.ino, p.1, .dir⟩ : Dirent)).filter isSubdir).map (·.dName) =
      (l.map (·.1)).filter fun q => q != "." && q != ".." := by
    induction l with
    | nil => rfl
    | cons p l ih =>
      have hp : isSubdir ⟨p.2.ino, p.1, .dir⟩ = (p.1 != "." && p.1 != "..") := by
        simp [isSubdir, isDotDir, Bool.not_or, bne]
      rw [map_cons, map_cons, filter_cons, filter_cons, hp]
      split
      · rw [map_cons, ih]
      · exact ih
  have hdots (ino : Nat) : isSubdir ⟨ino, ".", .dir⟩ = false ∧ isSubdir ⟨ino, "..", .dir⟩ = false :=
    ⟨rfl, rfl⟩
  rw [timerQueues, QueueTree.readdir, filter_cons_of_neg (by simp [hdots]),
    filter_cons_of_neg (by simp [hdots]),
    filter_append, hothers, nil_append, hdirs]

theorem nodup_timerQueues (h : t.WellFormed) : (timerQueues t).Nodup := by
  rw [timerQueues_eq h]
  exact h.names.filter _

theorem isSome_of_mem_timerQueues (h : t.WellFormed) (hq : q ∈ timerQueues t) :
    (t.lookup q).isSome = true := by
  rw [timerQueues_eq h] at hq
  obtain ⟨p, hp, rfl⟩ := mem_map.1 (mem_filter.1 hq).1
  rw [QueueTree.lookup, Option.isSome_map, find?_isSome]
  exact ⟨p, hp, by simp⟩

theorem ne_dot_of_mem_timerQueues (h : t.WellFormed) (hq : q ∈ timerQueues t) : q ≠ "." := by
  rw [timerQueues_eq h] at hq
  have := (mem_filter.1 hq).2
  simp only [Bool.and_eq_true, bne_iff_ne] at this
  exact this.1

/-- The two loops, from the call of `update_timerfd` to the setting of the timer. -/
theorem timers_rule {s : Sys} {rest : List Task} (hI : TimerInv s.k.timer s.k.now I)
    (hrun : s.d.status = .running)
    (ht : s.d.todo = .updateTimerfd :: rest) (hwf : s.k.timer.WellFormed)
    (hstart : I [] { s with d.next := ullongMax }) {Q : Sys → Prop}
    (hset : ∀ s', s'.d.todo = .setTimer :: rest → I (timerEntries s.k.timer) s' →
      Returns rest.length Q s') :
    Returns rest.length Q s := by
  let s₁ : Sys := { s with
    d.next := ullongMax
    d.todo := (timerQueues s.k.timer).map (.timerQueue s.k.now) ++ .setTimer :: rest }
  refine .of_eq (u := s₁) hrun ht (Nat.le_refl _) (fun c _ => ?_) ?_
  · simp [runTask, s₁, timerQueues, Sys.push, Function.comp_def]
  · refine (hI.outer (D := []) _ (nodup_timerQueues hwf) (fun q => isSome_of_mem_timerQueues hwf)
      (by simp) ?_ (hI.todo [] _ _ hstart) rfl).seq (by simp) ?_
    · exact prefix_rfl
    · rintro s₂ ⟨htodo, hI₂⟩
      exact hset s₂ htodo hI₂

end

end MakeInitrd.Ueventd
