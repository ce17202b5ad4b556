import MakeInitrd.Ueventd.Settime
import MakeInitrd.Ueventd.Table

/-!
# `update_timerfd` moves exactly the timers that are due

For timer files named `<due>.<event>`, where `due` is a decimal number and the events of a queue are
distinct and not in its directory yet (`TimersReady`), a call of `update_timerfd` moves the timers
that are due, marks the queues dirty, and arms the timer with the smallest due time of the timers
that remain (`TimersProcessed`). `Moving` is the invariant of its loops.
-/

namespace MakeInitrd.Ueventd

open List

/-! ## Names of timers -/

/-- The value of a text of decimal digits. -/
def decimalValue (ds : List Char) : Nat :=
  ds.foldl (fun n c => n * 10 + (c.toNat - '0'.toNat)) 0

/-- The name is `<due>.<event>`, where `due` is a positive decimal number below `2 ^ 63`, and
`event` is neither empty nor starts with a dot. -/
structure TimerName (name : String) (due : Nat) (event : String) : Prop where
  name : ∃ ds : List Char, ds ≠ [] ∧ (∀ c ∈ ds, c.isDigit = true) ∧ due = decimalValue ds ∧
    name = String.ofList (ds ++ '.' :: event.toList)
  pos : 0 < due
  lt : due < 2 ^ 63
  event : ∃ c s, event.toList = c :: s ∧ c ≠ '.'

section
variable {name event : String} {due : Nat}

theorem isDigit_spec {c : Char} (h : c.isDigit = true) : 48 ≤ c.toNat ∧ c.toNat ≤ 57 := by
  simp only [Char.isDigit, Bool.and_eq_true, decide_eq_true_eq] at h
  exact ⟨UInt32.le_iff_toNat_le.1 h.1, UInt32.le_iff_toNat_le.1 h.2⟩

theorem digitVal_of_isDigit {c : Char} (h : c.isDigit = true) :
    CNum.digitVal c.toNat = c.toNat - 48 := by
  obtain ⟨hlo, hhi⟩ := isDigit_spec h
  simp [CNum.digitVal, hlo, hhi]

theorem digitsValue_of_isDigit {ds : List Char} (h : ∀ c ∈ ds, c.isDigit = true) :
    CNum.digitsValue 10 (ds.map Char.toNat) = decimalValue ds := by
  have hfold (n : Nat) : (ds.map Char.toNat).foldl (fun acc c => acc * 10 + CNum.digitVal c) n =
      ds.foldl (fun n c => n * 10 + (c.toNat - '0'.toNat)) n := by
    induction ds generalizing n with
    | nil => rfl
    | cons c ds ih =>
      rw [map_cons, foldl_cons, foldl_cons, digitVal_of_isDigit (h c mem_cons_self)]
      exact ih (fun x hx => h x (mem_cons_of_mem _ hx)) _
  exact hfold 0

theorem TimerName.parseTimerDue (h : TimerName name due event) : parseTimerDue name = due := by
  obtain ⟨⟨ds, hne, hds, rfl, rfl⟩, -, hlt, -⟩ := h
  have hcodes : ∀ c ∈ ds.map Char.toNat, 48 ≤ c ∧ c ≤ 57 := by
    intro c hc
    obtain ⟨d, hd, rfl⟩ := mem_map.1 hc
    exact isDigit_spec (hds d hd)
  have hvalue := digitsValue_of_isDigit hds
  have hconv : CNum.strtoul 10 ((ds ++ '.' :: event.toList).map Char.toNat) =
      ⟨decimalValue ds, 46 :: event.toList.map Char.toNat, true, false⟩ := by
    rw [map_append, map_cons, ← hvalue]
    refine CNum.strtoul_decimal (by simpa using hne) hcodes (by decide) ?_
    rw [hvalue]
    exact Nat.lt_trans hlt (by decide)
  rw [Ueventd.parseTimerDue, String.toList_ofList, hconv]
  rfl

theorem TimerName.eventName (h : TimerName name due event) : eventName name = some event := by
  obtain ⟨⟨ds, hne, hds, -, rfl⟩, -, -, c, s, hevent, -⟩ := h
  have hdot : (ds ++ '.' :: event.toList).dropWhile (· != '.') = '.' :: event.toList := by
    refine Span.dropWhile_stop (fun c hc => ?_) (by decide)
    have hdigit := hds c hc
    refine bne_iff_ne.2 ?_
    rintro rfl
    cases hdigit
  rw [Ueventd.eventName, String.toList_ofList, hdot, hevent]
  show some (String.ofList (c :: s)) = some event
  rw [← hevent, String.ofList_toList]

theorem TimerName.not_hidden {ent : Dirent} (h : TimerName ent.dName due event) :
    ent.hidden = false := by
  obtain ⟨⟨ds, hne, hds, -, hname⟩, -⟩ := h
  obtain ⟨d, ds, rfl⟩ := exists_cons_of_ne_nil hne
  have hdigit := hds d mem_cons_self
  rw [Dirent.hidden, hname, String.toList_ofList, cons_append, head?_cons]
  refine beq_eq_false_iff_ne.2 fun heq => ?_
  rw [Option.some.inj heq] at hdigit
  cases hdigit

theorem TimerName.dueOf {ent : Dirent} (h : TimerName ent.dName due event)
    (hreg : ent.dType = .reg) :
    dueOf ent = due := by
  rw [Ueventd.dueOf, h.not_hidden, hreg]
  exact h.parseTimerDue

end

/-! ## What a rename does -/

section
variable {t : QueueTree} {k : Kernel} {q q' name ev : String} {ent e : Dirent} {tab : Table}

theorem has_remove_iff :
    (t.modify q (·.remove name)).Has q' e ↔ t.Has q' e ∧ (q' = q → e.dName ≠ name) := by
  refine ⟨QueueTree.Has.of_remove, ?_⟩
  rintro ⟨⟨d, hd, he⟩, hne⟩
  refine ⟨_, by rw [QueueTree.lookup_modify, hd]; rfl, ?_⟩
  by_cases hq : q' = q
  · rw [if_pos hq]
    exact mem_filter.2 ⟨he, by simpa using hne hq⟩
  · rwa [if_neg hq]

theorem has_put_iff (ent : Dirent) (hsome : (t.lookup q).isSome = true)
    (hnew : ∀ e, t.Has q e → e.dName ≠ ent.dName) :
    (t.modify q (·.put 0 ent)).Has q' e ↔ t.Has q' e ∨ q' = q ∧ e = ent := by
  refine ⟨QueueTree.Has.of_put, ?_⟩
  have hfind {d : Dir} (hd : t.lookup q = some d) : d.find ent.dName = none :=
    find?_eq_none.2 fun x hx => by simpa using hnew x ⟨d, hd, hx⟩
  rintro (⟨d, hd, he⟩ | ⟨rfl, rfl⟩)
  · refine ⟨_, by rw [QueueTree.lookup_modify, hd]; rfl, ?_⟩
    by_cases hq : q' = q
    · subst hq
      rw [if_pos rfl]
      exact (mem_put_iff (hfind hd)).2 (.inr he)
    · rwa [if_neg hq]
  · obtain ⟨d, hd⟩ := Option.isSome_iff_exists.1 hsome
    refine ⟨_, by rw [QueueTree.lookup_modify, hd]; rfl, ?_⟩
    rw [if_pos rfl]
    exact (mem_put_iff (hfind hd)).2 (.inl rfl)

theorem renameTimer_of_has (hent : k.timer.Has q ent)
    (huniq : ∀ e, k.timer.Has q e → e.dName = ent.dName → e = ent)
    (hev : eventName ent.dName = some ev) (hsome : (k.filter.lookup q).isSome = true)
    (hnew : ∀ e, k.filter.Has q e → e.dName ≠ ev) :
    ∃ evs, renameTimer k q ent.dName = some { k with
      timer := k.timer.modify q (·.remove ent.dName)
      filter := k.filter.modify q (·.put 0 { ent with dName := ev })
      inotify := evs } := by
  obtain ⟨src, hsrc, hmem⟩ := hent
  obtain ⟨dst, hdst⟩ := Option.isSome_iff_exists.1 hsome
  have hfind : src.find ent.dName = some ent := by
    cases hfind : src.find ent.dName with
    | none =>
      have := find?_eq_none.1 hfind ent hmem
      simp at this
    | some e =>
      have hname : e.dName = ent.dName := by simpa using find?_some hfind
      rw [huniq e ⟨src, hsrc, mem_of_find?_eq_some hfind⟩ hname]
  have hnone : dst.find ev = none := find?_eq_none.2 fun x hx => by
    simpa using hnew x ⟨dst, hdst, hx⟩
  obtain ⟨evs, heq⟩ := Kernel.notify_eq { k with
    timer := k.timer.modify q (·.remove ent.dName)
    filter := k.filter.modify q (·.put 0 { ent with dName := ev }) } dst.ino .movedTo ev
  refine ⟨evs, ?_⟩
  simp only [renameTimer, hev, hsrc, hfind, hdst, hnone, Option.bind_eq_bind, Option.bind_some,
    Option.any_none, Bool.false_eq_true, if_false]
  exact congrArg some heq

theorem mem_markQueueDirty {sel : Watch → Bool} {w : Watch} (hw : w ∈ tab.watchList)
    (hdirty : w.dirty = true) :
    w ∈ (tab.markQueueDirty sel).watchList := by
  rw [Table.markQueueDirty]
  split
  · exact hw
  · next p hp =>
    split
    · exact hw
    · next hclean =>
      rcases mem_modifyFirst_of_find hp hw with rfl | hmem
      · exact absurd hdirty hclean
      · exact hmem

theorem exists_markQueueDirty (h : (findQueueWatch tab.watchList q).isSome = true) :
    ∃ w ∈ (tab.markQueueDirty (isQueueWatch q)).watchList, isQueueWatch q w = true ∧
      w.dirty = true := by
  obtain ⟨p, hp⟩ := Option.isSome_iff_exists.1 h
  have hsel := find?_some hp
  by_cases hdirty : p.dirty = true
  · exact ⟨p, mem_markQueueDirty (mem_of_find?_eq_some hp) hdirty, hsel, hdirty⟩
  · rw [findQueueWatch] at hp
    refine ⟨{ p with dirty := true }, ?_, hsel, rfl⟩
    simp only [Table.markQueueDirty, hp, hdirty]
    exact modifyFirst_find hp

theorem isSome_findQueueWatch_mark {sel : Watch → Bool} :
    (findQueueWatch (tab.markQueueDirty sel).watchList q).isSome =
      (findQueueWatch tab.watchList q).isSome := by
  have hmap :
      (tab.markQueueDirty sel).watchList.map (isQueueWatch q) =
        tab.watchList.map (isQueueWatch q) :=
    Table.map_markQueueDirty fun _ => rfl
  have hany (l : List Watch) : (findQueueWatch l q).isSome = (l.map (isQueueWatch q)).any id := by
    rw [findQueueWatch, any_map, Bool.eq_iff_iff, find?_isSome, any_eq_true]
    rfl
  rw [hany, hany, hmap]

theorem Live.renamed {s : Sys} (h : Live s) {f g : Dir → Dir} (hf : ∀ d, (f d).ino = d.ino)
    (hg : ∀ d, (g d).ino = d.ino) (evs : List InotifyEvent) (sel : Watch → Bool) : Live { s with
      k.timer := s.k.timer.modify q f
      k.filter := s.k.filter.modify q g
      k.inotify := evs
      d.tab := s.d.tab.markQueueDirty sel } := by
  refine ⟨?_, fun w hw => ?_⟩
  · refine Watch.forall_of_map (Table.map_markQueueDirty ?_) ?_
    · exact fun _ => rfl
    · intro w hw hk
      obtain ⟨ino, hino, hmem⟩ := h.queues w hw hk
      exact ⟨ino, (QueueTree.inoOf_modify hg).trans hino, hmem⟩
  · have hw := freshIno_eq_false.1 (h.inodes w hw)
    refine freshIno_eq_false.2 ?_
    show w.ino ∈ s.k.pause.ino ::
      ((s.k.filter.modify q g).inos ++ (s.k.timer.modify q f).inos ++ s.k.orphans)
    rwa [inos_modify _ hf, inos_modify _ hg]

end

/-! ## What the call is to do -/

section
variable (due : Dirent → Nat) (event : Dirent → String)

/-- The file is a timer that is due. -/
def Expired (now : Nat) (t : Dirent) : Prop :=
  t.dType = .reg ∧ due t ≤ now

/-- The file under the name of its event. -/
def Dirent.moved (t : Dirent) : Dirent :=
  { t with dName := event t }

/-- The timers are named as they should be, no event stands in their way, and the watch list agrees
with the existing queue directories. -/
structure TimersReady (s : Sys) (rest : List Task) : Prop extends UpdateCall s rest where
  dots : ∀ q t, s.k.timer.Has q t → q ≠ "." ∧ q ≠ ".."
  unique : ∀ q d, s.k.timer.lookup q = some d → (d.readdir.map (·.dName)).Nodup
  named : ∀ q t, s.k.timer.Has q t → t.dType = .reg → TimerName t.dName (due t) (event t)
  distinct : ∀ q t t', s.k.timer.Has q t → s.k.timer.Has q t' → t.dType = .reg → t'.dType = .reg →
    event t = event t' → t = t'
  absent : ∀ q t e, s.k.timer.Has q t → t.dType = .reg → s.k.filter.Has q e → e.dName ≠ event t
  live : Live s
  watched : ∀ q, (s.k.filter.lookup q).isSome = true →
    (findQueueWatch s.d.tab.watchList q).isSome = true

/-- The timers that are due have been moved, their queues are watched and dirty, and the timer is
armed for the ones that remain. -/
structure TimersProcessed (s s' : Sys) : Prop where
  timers : ∀ q t, s'.k.timer.Has q t ↔ s.k.timer.Has q t ∧ ¬ Expired due s.k.now t
  files : ∀ q e, e.dType = .reg → (s'.k.filter.Has q e ↔
    s.k.filter.Has q e ∨ ∃ t, s.k.timer.Has q t ∧ Expired due s.k.now t ∧ e = t.moved event)
  /-- All that is new besides is a directory `.tmp` in the queues of these timers. -/
  dirs : ∀ q e, e.dType ≠ .reg → (s.k.filter.Has q e → s'.k.filter.Has q e) ∧ (s'.k.filter.Has q e →
    s.k.filter.Has q e ∨ e = tmpDir ∧ ∃ t, s.k.timer.Has q t ∧ Expired due s.k.now t)
  uevent : s'.k.uevent = s.k.uevent
  pause : s'.k.pause = s.k.pause
  watched : ∀ q t, s.k.timer.Has q t → Expired due s.k.now t →
    ∃ w ∈ s'.d.tab.watchList, isQueueWatch q w = true ∧ w.dirty = true ∧ s'.k.Watched q w.qWatchfd
  armed : ∀ n, s'.k.timerAt = some n ↔
    (∃ q t, s'.k.timer.Has q t ∧ t.dType = .reg ∧ due t = n) ∧ ∀ q t, s'.k.timer.Has q t → t.dType =
      .reg → n ≤ due t
  running : s'.d.status = .running

/-- What the loops have done after the entries `D`. -/
structure Moving (s₀ : Sys) (D : List (String × Dirent)) (s : Sys) :
    Prop extends Reading s₀ D s where
  timers : ∀ q t, s.k.timer.Has q t ↔ s₀.k.timer.Has q t ∧ ¬ ((q, t) ∈ D ∧ Expired due s₀.k.now t)
  moved : ∀ q t, (q, t) ∈ D → Expired due s₀.k.now t → s.k.filter.Has q (t.moved event)
  kept : ∀ q e, s₀.k.filter.Has q e → s.k.filter.Has q e
  new : ∀ q e, s.k.filter.Has q e → s₀.k.filter.Has q e ∨
    ∃ t, (q, t) ∈ D ∧ Expired due s₀.k.now t ∧ (e = t.moved event ∨ e = tmpDir)
  uevent : s.k.uevent = s₀.k.uevent
  pause : s.k.pause = s₀.k.pause
  live : Live s
  watched : ∀ q, (s.k.filter.lookup q).isSome = true →
    (findQueueWatch s.d.tab.watchList q).isSome = true
  dirty : ∀ q t, (q, t) ∈ D → Expired due s₀.k.now t → ∃ w ∈ s.d.tab.watchList, isQueueWatch q w =
    true ∧ w.dirty = true

end

section
variable {due : Dirent → Nat} {event : Dirent → String} {s₀ s : Sys} {rest : List Task}
    {D : List (String × Dirent)}
  {q : String} {ent : Dirent}

theorem Moving.read (h : Moving due event s₀ D s) (hnot : ¬ Expired due s₀.k.now ent) {n : Nat}
    {ts : List Task} (hn : n = nextDue s₀.k.now (D ++ [(q, ent)])) :
    Moving due event s₀ (D ++ [(q, ent)]) { s with d.next := n, d.todo := ts } := by
  have hmem {q' : String} {t : Dirent} (hexp : Expired due s₀.k.now t) :
      (q', t) ∈ D ++ [(q, ent)] ↔ (q', t) ∈ D := by
    rw [mem_append, mem_singleton]
    refine or_iff_left fun heq => hnot ?_
    exact (Prod.mk.inj heq).2 ▸ hexp
  refine ⟨h.toReading.read q ent hn, fun q' t => ?_, fun q' t hD hexp => ?_, h.kept,
    fun q' e he => ?_, h.uevent, h.pause,
    ⟨h.live.queues, h.live.inodes⟩, h.watched, fun q' t hD hexp => ?_⟩
  · rw [show (q', t) ∈ D ++ [(q, ent)] ∧ Expired due s₀.k.now t ↔ (q', t) ∈ D ∧
      Expired due s₀.k.now t from
      and_congr_left hmem]
    exact h.timers q' t
  · exact h.moved q' t ((hmem hexp).1 hD) hexp
  · refine (h.new q' e he).imp_right ?_
    rintro ⟨t, hD, hexp, hor⟩
    exact ⟨t, (hmem hexp).2 hD, hexp, hor⟩
  · exact h.dirty q' t ((hmem hexp).1 hD) hexp

theorem nodup_timerEntries (h : TimersReady due event s₀ rest) :
    (timerEntries s₀.k.timer).Nodup := by
  refine nodup_flatMap.2 ⟨fun q _ => ?_, ?_⟩
  · rw [queueEntries]
    cases hd : s₀.k.timer.lookup q with
    | none => simp
    | some d => exact (h.unique q d hd).of_map _ |>.map fun _ _ heq => (Prod.mk.inj heq).2
  · refine (nodup_timerQueues h.wellFormed).imp fun hne => ?_
    intro x hx hx'
    obtain ⟨_, -, rfl⟩ := mem_map.1 hx
    obtain ⟨_, -, heq⟩ := mem_map.1 hx'
    exact hne (Prod.mk.inj heq).1.symm

/-- The entries that are read are those of the directories, and `.` and `..`. -/
theorem has_of_isNext (h : IsNext s₀.k.timer D q ent) (hreg : ent.dType = .reg) :
    s₀.k.timer.Has q ent := by
  obtain ⟨-, d, hd, he⟩ := mem_timerEntries.1 h.mem
  refine ⟨d, hd, ?_⟩
  rcases mem_cons.1 he with rfl | he
  · cases hreg
  · rcases mem_cons.1 he with rfl | he
    · cases hreg
    · exact he

theorem TimersReady.eq_of_name (h : TimersReady due event s₀ rest) {t t' : Dirent}
    (ht : s₀.k.timer.Has q t)
    (ht' : s₀.k.timer.Has q t') (hname : t.dName = t'.dName) : t = t' := by
  obtain ⟨d, hd, hmem⟩ := ht
  obtain ⟨d', hd', hmem'⟩ := ht'
  obtain rfl : d = d' := Option.some.inj (hd.symm.trans hd')
  have hin {e : Dirent} (he : e ∈ d.ents) : e ∈ d.readdir :=
    mem_cons_of_mem _ (mem_cons_of_mem _ he)
  exact inj_on_of_nodup_map (h.unique q d hd) (hin hmem) (hin hmem') hname

/-- A due timer is renamed. -/
theorem Moving.renamed (hready : TimersReady due event s₀ rest) (h : Moving due event s₀ D s)
    (hnext : IsNext s₀.k.timer D q ent) (hexp : Expired due s₀.k.now ent) {s₁ s' : Sys}
    (hopen : Opened q s s₁)
    (hsome : (s₁.k.filter.lookup q).isSome = true)
    (hwatch : (findQueueWatch s₁.d.tab.watchList q).isSome = true)
    (hread : Reading s₀ (D ++ [(q, ent)]) s₁)
    (htask : runTask s₁ .go (.renameTimer q ent.dName) = some s') :
    Moving due event s₀ (D ++ [(q, ent)]) s' := by
  have hent₀ : s₀.k.timer.Has q ent := has_of_isNext hnext hexp.1
  have hname := hready.named q ent hent₀ hexp.1
  have hnotin : (q, ent) ∉ D := by
    have := (nodup_timerEntries hready).sublist hnext.sublist
    exact fun hmem => (nodup_append.1 this).2.2 _ hmem _ (mem_singleton.2 rfl) rfl
  have hmem {q' : String} {t : Dirent} :
      (q', t) ∈ D ++ [(q, ent)] ↔ (q', t) ∈ D ∨ q' = q ∧ t = ent := by
    rw [mem_append, mem_singleton, Prod.mk.injEq]
  have hent : s₁.k.timer.Has q ent := by
    rw [hopen.timer]
    exact (h.timers q ent).2 ⟨hent₀, fun hin => hnotin hin.1⟩
  have huniq : ∀ e, s₁.k.timer.Has q e → e.dName = ent.dName → e = ent := by
    intro e he heq
    rw [hopen.timer] at he
    exact hready.eq_of_name ((h.timers q e).1 he).1 hent₀ heq
  -- No file in the queue directory has the name of the event: neither one that was there, nor one
  -- moved before.
  have hnew : ∀ e, s₁.k.filter.Has q e → e.dName ≠ event ent := by
    have htmp : tmpDir.dName ≠ event ent := by
      obtain ⟨c, cs, hevent, hc⟩ := hname.event
      intro heq
      rw [← heq] at hevent
      exact hc (cons.inj hevent).1.symm
    intro e he
    rcases hopen.brings q e he with he | ⟨-, rfl⟩
    · rcases h.new q e he with he | ⟨t, hD, hexpt, rfl | rfl⟩
      · exact hready.absent q ent e hent₀ hexp.1 he
      · intro heq
        have ht₀ : s₀.k.timer.Has q t := by
          have hpre : (q, t) ∈ timerEntries s₀.k.timer := hnext.subset (mem_append_left _ hD)
          obtain ⟨l, r, hlr⟩ := append_of_mem hpre
          exact has_of_isNext (D := l) ⟨r, by simp [hlr]⟩ hexpt.1
        rw [hready.distinct q t ent ht₀ hent₀ hexpt.1 hexp.1 heq] at hD
        exact hnotin hD
      · exact htmp
    · exact htmp
  obtain ⟨evs, hk⟩ := renameTimer_of_has hent huniq hname.eventName hsome hnew
  have hreading := hread.renamed htask
  simp only [runTask, hk] at htask
  cases htask
  have hfilter {q' : String} {e : Dirent} :
      (s₁.k.filter.modify q (·.put 0 (ent.moved event))).Has q' e ↔
      s₁.k.filter.Has q' e ∨ q' = q ∧ e = ent.moved event :=
        has_put_iff (ent.moved event) hsome hnew
  refine ⟨hreading, fun q' t => ?_, fun q' t hD hexpt => hfilter.2 ?_, fun q' e he => ?_,
    fun q' e he => ?_,
    hopen.uevent.trans h.uevent, hopen.pause.trans h.pause, ?_, fun q' hq => ?_,
      fun q' t hD hexpt => ?_⟩
  · refine has_remove_iff.trans ?_
    rw [hopen.timer, h.timers q' t, hmem, and_assoc]
    refine and_congr_right fun ht₀ => ?_
    constructor
    · rintro ⟨hold, hne⟩ ⟨hD | ⟨rfl, rfl⟩, hexpt⟩
      · exact hold ⟨hD, hexpt⟩
      · exact hne rfl rfl
    · intro hnot
      refine ⟨fun hold => hnot ⟨.inl hold.1, hold.2⟩, ?_⟩
      rintro rfl heq
      obtain rfl := hready.eq_of_name ht₀ hent₀ heq
      exact hnot ⟨.inr ⟨rfl, rfl⟩, hexp⟩
  · rcases hmem.1 hD with hD | ⟨rfl, rfl⟩
    · exact .inl (hopen.keeps _ _ (h.moved q' t hD hexpt))
    · exact .inr ⟨rfl, rfl⟩
  · exact hfilter.2 (.inl (hopen.keeps _ _ (h.kept q' e he)))
  · rcases hfilter.1 he with he | ⟨rfl, rfl⟩
    · rcases hopen.brings q' e he with he | ⟨rfl, rfl⟩
      · refine (h.new q' e he).imp_right ?_
        rintro ⟨t, hD, hexpt, hor⟩
        exact ⟨t, hmem.2 (.inl hD), hexpt, hor⟩
      · exact .inr ⟨ent, hmem.2 (.inr ⟨rfl, rfl⟩), hexp, .inr rfl⟩
    · exact .inr ⟨ent, hmem.2 (.inr ⟨rfl, rfl⟩), hexp, .inl rfl⟩
  · exact (hopen.live h.live).renamed (f := (·.remove ent.dName)) (g := (·.put 0 (ent.moved event)))
      (fun _ => rfl)
      (fun _ => rfl) evs _
  · rw [isSome_findQueueWatch_mark]
    by_cases heq : q' = q
    · rwa [heq]
    · have hlookup : (s.k.filter.lookup q').isSome = true := by
        rw [← hopen.lookup q' heq]
        simpa [QueueTree.lookup_modify] using hq
      obtain ⟨w, hw⟩ := Option.isSome_iff_exists.1 (h.watched q' hlookup)
      exact find?_isSome.2 ⟨w, hopen.watches w (mem_of_find?_eq_some hw), find?_some hw⟩
  · rcases hmem.1 hD with hD | ⟨rfl, rfl⟩
    · obtain ⟨w, hw, hsel, hdirty⟩ := h.dirty q' t hD hexpt
      exact ⟨w, mem_markQueueDirty (hopen.watches w hw) hdirty, hsel, hdirty⟩
    · exact exists_markQueueDirty hwatch

theorem dType_of_dueOf (ent : Dirent) (h : dueOf ent ≠ 0) : ent.dType = .reg := by
  rw [dueOf] at h
  split at h
  · exact absurd rfl h
  · next hskip => simpa using (Bool.or_eq_false_iff.1 (Bool.eq_false_iff.2 hskip)).2

theorem TimersReady.dueOf_eq (h : TimersReady due event s₀ rest) (hent : s₀.k.timer.Has q ent)
    (hreg : ent.dType = .reg) :
    dueOf ent = due ent ∧ 0 < due ent :=
  ⟨(h.named q ent hent hreg).dueOf hreg, (h.named q ent hent hreg).pos⟩

/-- Both loops keep the account of what was moved. -/
theorem moving_inv (h : TimersReady due event s₀ rest) :
    TimerInv s₀.k.timer s₀.k.now (Moving due event s₀) where
  todo D s ts hI := ⟨⟨hI.status, hI.next, hI.lookup, hI.others⟩, hI.timers, hI.moved, hI.kept,
    hI.new, hI.uevent,
    hI.pause, ⟨hI.live.queues, hI.live.inodes⟩, hI.watched, hI.dirty⟩
  status D s hI := hI.status
  lookup D s q hI hq := hI.lookup q hq
  entry D q ent s ts hnext hI htodo := by
    have hdue (hreg : ent.dType = .reg) := h.dueOf_eq (has_of_isNext hnext hreg) hreg
    refine hI.turn h.toUpdateCall hnext htodo (fun n hn hlate => hI.read (fun hexp => ?_) hn)
      fun hpos hle s' hmoved => ?_
    · have := hdue hexp.1
      have := hexp.2
      omega
    · have hreg := dType_of_dueOf ent hpos
      have hexp : Expired due s₀.k.now ent := ⟨hreg, (hdue hreg).1 ▸ hle⟩
      rcases hmoved with ⟨hnone, -⟩ | ⟨s₂, hopen, hsome, hw, htask⟩
      · rw [(h.named q ent (has_of_isNext hnext hreg) hreg).eventName] at hnone
        cases hnone
      · have hopen' : Opened q s s₂ := hopen.of_todo s.d.todo s₂.d.todo
        refine hI.renamed h hnext hexp hopen' hsome ?_ (hI.opened hopen' (nextDue_skip hle)) htask
        exact hw ⟨hI.live.queues, hI.live.inodes⟩ (hI.watched q)

theorem TimersReady.mem_entries (h : TimersReady due event s₀ rest) (hent : s₀.k.timer.Has q ent) :
    (q, ent) ∈ timerEntries s₀.k.timer := by
  have hdots := h.dots q ent hent
  obtain ⟨d, hd, hmem⟩ := hent
  refine mem_timerEntries.2 ⟨?_, d, hd, mem_cons_of_mem _ (mem_cons_of_mem _ hmem)⟩
  rw [timerQueues_eq h.wellFormed]
  obtain ⟨p, hp, -⟩ := Option.map_eq_some_iff.1 hd
  have hname : p.1 = q := by simpa using find?_some hp
  refine mem_filter.2 ⟨hname ▸ mem_map_of_mem (mem_of_find?_eq_some hp), ?_⟩
  simp [hdots.1, hdots.2]

theorem has_of_mem_entries (h : (q, ent) ∈ timerEntries s₀.k.timer) (hreg : ent.dType = .reg) :
    s₀.k.timer.Has q ent := by
  obtain ⟨l, r, hlr⟩ := append_of_mem h
  exact has_of_isNext (D := l) ⟨r, by simp [hlr]⟩ hreg

theorem Moving.init (h : TimersReady due event s₀ rest) :
    Moving due event s₀ [] { s₀ with d.next := ullongMax } :=
  ⟨⟨h.running, rfl, fun _ _ => rfl, rfl⟩,
    by simp, by simp, fun _ _ he => he, fun _ _ he => .inl he, rfl, rfl,
    ⟨h.live.queues, h.live.inodes⟩, h.watched, by simp⟩

/-- The timer is armed with the earliest time after now. -/
theorem TimersReady.nextDue_spec (h : TimersReady due event s₀ rest) (n : Nat) :
    (nextDue s₀.k.now (timerEntries s₀.k.timer) ≠ ullongMax ∧
      nextDue s₀.k.now (timerEntries s₀.k.timer) = n) ↔
      (∃ q t, (s₀.k.timer.Has q t ∧ ¬ Expired due s₀.k.now t) ∧ t.dType = .reg ∧ due t = n) ∧
        ∀ q t, (s₀.k.timer.Has q t ∧ ¬ Expired due s₀.k.now t) → t.dType = .reg → n ≤ due t := by
  have hle {q : String} {t : Dirent} (ht : s₀.k.timer.Has q t ∧ ¬ Expired due s₀.k.now t)
      (hreg : t.dType = .reg) :
      nextDue s₀.k.now (timerEntries s₀.k.timer) ≤ due t := by
    have hdue := h.dueOf_eq ht.1 hreg
    have hlate : s₀.k.now < due t := Nat.lt_of_not_le fun hle => ht.2 ⟨hreg, hle⟩
    rw [← hdue.1] at hlate ⊢
    exact nextDue_le (x := (q, t)) (h.mem_entries ht.1) hlate
  constructor
  · rintro ⟨hmax, rfl⟩
    obtain ⟨⟨q, t⟩, hx, hnow, heq⟩ := nextDue_mem hmax
    dsimp only at hnow heq
    have hreg := dType_of_dueOf t (by omega)
    have ht := has_of_mem_entries hx hreg
    have hdue := h.dueOf_eq ht hreg
    refine ⟨⟨q, t, ⟨ht, fun hexp => ?_⟩, hreg, ?_⟩, fun _ _ ht hreg => hle ht hreg⟩
    · have := hexp.2
      omega
    · omega
  · rintro ⟨⟨q, t, ht, hreg, rfl⟩, hleast⟩
    have hup := hle ht hreg
    have hlt := (h.named q t ht.1 hreg).lt
    have hmax : nextDue s₀.k.now (timerEntries s₀.k.timer) ≠ ullongMax := by
      have : 2 ^ 63 < ullongMax := by decide
      omega
    refine ⟨hmax, Nat.le_antisymm hup ?_⟩
    obtain ⟨⟨q', t'⟩, hx, hnow, heq⟩ := nextDue_mem hmax
    dsimp only at hnow heq
    have hreg' := dType_of_dueOf t' (by omega)
    have ht' := has_of_mem_entries hx hreg'
    have hdue := h.dueOf_eq ht' hreg'
    have := hleast q' t' ⟨ht', fun hexp => by have := hexp.2; omega⟩ hreg'
    omega

/-- What the account says when the loops are over -/
theorem Moving.processed (h : TimersReady due event s₀ rest)
    (hI : Moving due event s₀ (timerEntries s₀.k.timer) s)
    {at_ : Option Nat} {changed : Bool} (harmed : ∀ n, at_ = some n ↔
      nextDue s₀.k.now (timerEntries s₀.k.timer) ≠ ullongMax ∧
        nextDue s₀.k.now (timerEntries s₀.k.timer) = n) :
    TimersProcessed due event s₀ { s with
      k.timerAt := at_, d.timerChanged := changed, d.todo := rest } := by
  have hmem {q : String} {t : Dirent} (hexp : Expired due s₀.k.now t) :
      (q, t) ∈ timerEntries s₀.k.timer ↔ s₀.k.timer.Has q t :=
    ⟨fun hx => has_of_mem_entries hx hexp.1, h.mem_entries⟩
  have htimers (q : String) (t : Dirent) :
      s.k.timer.Has q t ↔ s₀.k.timer.Has q t ∧ ¬ Expired due s₀.k.now t := by
    rw [hI.timers q t]
    refine and_congr_right fun ht => not_congr (and_iff_right_of_imp fun hexp => (hmem hexp).2 ht)
  refine ⟨htimers, fun q e hreg => ?_, fun q e hreg => ⟨hI.kept q e, fun he => ?_⟩,
    hI.uevent, hI.pause,
    fun q t ht hexp => ?_, fun n => ?_, hI.status⟩
  · constructor
    · intro he
      refine (hI.new q e he).imp_right ?_
      rintro ⟨t, hD, hexp, rfl | rfl⟩
      · exact ⟨t, (hmem hexp).1 hD, hexp, rfl⟩
      · cases hreg
    · rintro (he | ⟨t, ht, hexp, rfl⟩)
      · exact hI.kept q e he
      · exact hI.moved q t ((hmem hexp).2 ht) hexp
  · refine (hI.new q e he).imp_right ?_
    rintro ⟨t, hD, hexp, rfl | rfl⟩
    · exact absurd hexp.1 hreg
    · exact ⟨rfl, t, (hmem hexp).1 hD, hexp⟩
  · obtain ⟨w, hw, hsel, hdirty⟩ := hI.dirty q t ((hmem hexp).2 ht) hexp
    have hkind := Bool.and_eq_true_iff.1 hsel
    refine ⟨w, hw, hsel, hdirty, ?_⟩
    have hwatched := hI.live.queues w hw (by simpa using hkind.1)
    rwa [show w.qName = q by simpa using hkind.2] at hwatched
  · rw [harmed n, h.nextDue_spec n]
    simp only [← htimers]

/-- A call of `update_timerfd` moves exactly the timers that are due, marks their queues and arms
the timer. -/
theorem timers_processed (due : Dirent → Nat) (event : Dirent → String) (s : Sys) (rest : List Task)
    (h : TimersReady due event s rest) :
    Returns rest.length (fun s' => s'.d.todo = rest ∧ TimersProcessed due event s s') s := by
  refine timers_rule (moving_inv h) h.running h.todo h.wellFormed (Moving.init h)
    fun s' htodo hI => ?_
  by_cases hmax : s'.d.next = ullongMax
  · refine .of_eq hI.status htodo (Nat.le_refl _)
      (fun c _ => by simp only [runTask]; rw [if_pos hmax]) ?_
    refine .done (Nat.le_refl _) ⟨rfl, hI.processed h fun n => ?_⟩
    rw [← hI.next]
    simp [hmax]
  · have hsmall : ¬ 2 ^ 63 ≤ s'.d.next := by
      rw [hI.next] at hmax ⊢
      obtain ⟨⟨q, t, ht, hreg, hn⟩, -⟩ := (h.nextDue_spec _).1 ⟨hmax, rfl⟩
      have := (h.named q t ht.1 hreg).lt
      omega
    refine .of_eq hI.status htodo (Nat.le_refl _)
      (fun c _ => by simp only [runTask]; rw [if_neg hmax, if_neg hsmall]) ?_
    refine .done (Nat.le_refl _) ⟨rfl, hI.processed h fun n => ?_⟩
    rw [← hI.next]
    simp [hmax]

end

namespace Fixture

/-- Three seconds after the start a timer of the queue `udev` is due and another one is not; there
is no queue directory yet. -/
def twoTimers : Sys :=
  { k := { kernel with
      filter := ⟨2, [], []⟩
      timer := ⟨3, [("udev", ⟨5, [file 9 "2.event", file 10 "7.later"]⟩)], []⟩
      now := 3 }
    d := { Daemon.start with todo := [.updateTimerfd] }
    ws := [] }

def eventOf (t : Dirent) : String :=
  (eventName t.dName).getD ""

theorem has_twoTimers {q : String} {t : Dirent} (h : twoTimers.k.timer.Has q t) :
    q = "udev" ∧ (t = file 9 "2.event" ∨ t = file 10 "7.later") := by
  obtain ⟨d, hd, ht⟩ := h
  by_cases hq : q = "udev"
  · subst hq
    cases hd
    exact ⟨rfl, by simpa using ht⟩
  · simp [twoTimers, QueueTree.lookup, Ne.symm hq] at hd

theorem timersReady_twoTimers : TimersReady dueOf eventOf twoTimers [] where
  running := rfl
  todo := rfl
  wellFormed := ⟨by simp [twoTimers], by simp [twoTimers]⟩
  free := by simp [twoTimers]
  dots q t h := by
    obtain ⟨rfl, -⟩ := has_twoTimers h
    decide
  unique q d hd := by
    obtain ⟨p, hp, rfl⟩ := Option.map_eq_some_iff.1 hd
    obtain rfl := mem_singleton.1 (mem_of_find?_eq_some hp)
    decide
  named q t h _ := by
    obtain ⟨-, rfl | rfl⟩ := has_twoTimers h
    · exact ⟨⟨['2'], by decide, by simp, by decide, by decide⟩,
        by decide, by decide, 'e', "vent".toList, by decide, by decide⟩
    · exact ⟨⟨['7'], by decide, by simp, by decide, by decide⟩,
        by decide, by decide, 'l', "ater".toList, by decide, by decide⟩
  distinct q t t' h h' _ _ heq := by
    obtain ⟨-, rfl | rfl⟩ := has_twoTimers h <;> obtain ⟨-, rfl | rfl⟩ := has_twoTimers h'
    · rfl
    · cases heq
    · cases heq
    · rfl
  absent q t e _ _ h := by
    obtain ⟨d, hd, -⟩ := h
    cases hd
  live := ⟨by simp [twoTimers, Daemon.start, Table.start], by simp [twoTimers, kernel]⟩
  watched q h := by cases h

end Fixture

/-- The timer that is due is moved, and the other one arms the timer. -/
theorem timers_processed_twoTimers : Returns 0 (fun s' =>
    s'.k.filter.Has "udev" (Fixture.file 9 "event") ∧
      ¬ s'.k.timer.Has "udev" (Fixture.file 9 "2.event") ∧
      s'.k.timerAt = some 7) Fixture.twoTimers := by
  refine (timers_processed _ _ _ _ Fixture.timersReady_twoTimers).mono fun s' ⟨_, h⟩ => ?_
  have hdue : Expired dueOf Fixture.twoTimers.k.now (Fixture.file 9 "2.event") := ⟨rfl, by decide⟩
  have hhas (e : Dirent) (he : e ∈ [Fixture.file 9 "2.event", Fixture.file 10 "7.later"]) :
      Fixture.twoTimers.k.timer.Has "udev" e := ⟨_, rfl, he⟩
  have hlater : ¬ Expired dueOf Fixture.twoTimers.k.now (Fixture.file 10 "7.later") :=
    fun h => absurd h.2 (by decide)
  refine ⟨(h.files _ _ rfl).2 (.inr ⟨_, hhas _ (by simp), hdue, by decide⟩),
    fun hin => ((h.timers _ _).1 hin).2 hdue, ?_⟩
  refine (h.armed 7).2 ⟨⟨"udev", Fixture.file 10 "7.later",
    (h.timers _ _).2 ⟨hhas _ (by simp), hlater⟩, rfl, by decide⟩, ?_⟩
  intro q t ht hreg
  obtain ⟨hin, hnot⟩ := (h.timers q t).1 ht
  obtain ⟨rfl, rfl | rfl⟩ := Fixture.has_twoTimers hin
  · exact absurd hdue hnot
  · decide

end MakeInitrd.Ueventd
