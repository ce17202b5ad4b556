import MakeInitrd.Ueventd.Table

/-!
# One worker per queue

The dispatch loop starts a worker only for a watch whose `q_pid` is zero, and `waitpid` clears
`q_pid`. But when a queue is removed and made again while its worker runs, the new watch has no pid
and a second worker starts beside the first (`not_workers_exclusive`). `Exclusive` is the invariant
of the runs in which a queue is registered only when neither a watch nor a running worker of that
name is left.
-/

namespace MakeInitrd.Ueventd

open List

def Watch.Clash (v w : Watch) : Prop :=
  v.kind = .queueDir ∧ w.kind = .queueDir ∧ v.qName = w.qName

/-- A queue watch has the pid of every running child of its name. -/
def Watch.Holds (ch : List Child) (w : Watch) : Prop :=
  w.kind = .queueDir → ∀ c ∈ ch, c.qName = w.qName → c.dead = false → w.qPid = c.pid

/-- No two of the watches are queue watches of one name. -/
def NoClash (l : List Watch) : Prop :=
  l.Pairwise fun v w => ¬ v.Clash w

theorem NoClash.of_map {l l' : List Watch}
    (hmap : l'.map (fun w => (w.kind, w.qName)) = l.map fun w => (w.kind, w.qName))
    (h : NoClash l) : NoClash l' := by
  let R (x y : WatchKind × String) : Prop := ¬ (x.1 = .queueDir ∧ y.1 = .queueDir ∧ x.2 = y.2)
  have hl : (l.map fun w => (w.kind, w.qName)).Pairwise R := pairwise_map.2 h
  exact pairwise_map.1 (hmap ▸ hl)

theorem NoClash.ne_of_getElem? {l : List Watch} {i j : Nat} {v w : Watch} (h : NoClash l)
    (hi : l[i]? = some v) (hj : l[j]? = some w) (hij : i ≠ j) : ¬ v.Clash w := by
  obtain ⟨hil, rfl⟩ := List.getElem?_eq_some_iff.1 hi
  obtain ⟨hjl, rfl⟩ := List.getElem?_eq_some_iff.1 hj
  rcases Nat.lt_or_gt_of_ne hij with hlt | hlt
  · exact pairwise_iff_getElem.1 h i j hil hjl hlt
  · exact fun hc => pairwise_iff_getElem.1 h j i hjl hil hlt ⟨hc.2.1, hc.1, hc.2.2.symm⟩

/-- At most one watch and one running child for each queue name, and the watch has the child's
pid. -/
structure Exclusive (a : Abs) : Prop where
  watches : NoClash a.tab.watchList
  holds : ∀ w ∈ a.tab.watchList, w.Holds a.ch
  pos : ∀ c ∈ a.ch, c.pid ≠ 0
  pids : a.ch.Pairwise fun c c' => c.pid ≠ c'.pid
  alone : a.ch.Pairwise fun c c' => c.qName = c'.qName → c.dead = true ∨ c'.dead = true

namespace Exclusive

variable {a : Abs}

section
variable (h : Exclusive a)
include h

theorem of_map {t : Table} (hkey : t.watchList.map (fun w => (w.kind, w.qName)) =
      a.tab.watchList.map fun w => (w.kind, w.qName))
    (hholds : t.watchList.map (Watch.Holds a.ch) = a.tab.watchList.map (Watch.Holds a.ch)) :
    Exclusive { a with tab := t } where
  watches := h.watches.of_map hkey
  holds := Watch.forall_of_map hholds h.holds
  pos := h.pos
  pids := h.pids
  alone := h.alone

theorem unwatch (ino : Nat) : Exclusive (a.apply (.unwatch ino)) where
  watches := h.watches.sublist Table.unwatchPath_sublist
  holds w hw := h.holds w (Table.unwatchPath_sublist.subset hw)
  pos := h.pos
  pids := h.pids
  alone := h.alone

theorem register {name : String} {wfd ino : Nat} {kind : WatchKind}
    {isEmpty : Bool} (hwatch : kind = .queueDir → ∀ w ∈ a.tab.watchList, ¬ isQueueWatch name w)
    (hch : kind = .queueDir → ∀ c ∈ a.ch, c.qName = name → c.dead = true) :
    Exclusive (a.apply (.register name wfd ino kind isEmpty)) where
  watches := by
    refine pairwise_cons.2 ⟨fun w hw hclash => hwatch hclash.1 w hw ?_, h.watches⟩
    simp [isQueueWatch, hclash.2.1, hclash.2.2.symm]
  holds w hw := by
    rcases mem_cons.1 hw with rfl | hw
    · intro hk c hc hname halive
      rw [hch hk c hc hname] at halive
      cases halive
    · exact h.holds w hw
  pos := h.pos
  pids := h.pids
  alone := h.alone

theorem pid_inj {c c' : Child} (hc : c ∈ a.ch) (hc' : c' ∈ a.ch) (hpid : c.pid = c'.pid) :
    c = c' := by
  by_contra hne
  have : Std.Symm fun c c' : Child => c.pid ≠ c'.pid := ⟨fun _ _ hp he => hp he.symm⟩
  exact h.pids.forall hc hc' hne hpid

theorem reap {pid : Nat} (hen : a.Enabled (.reap pid)) : Exclusive (a.apply (.reap pid)) where
  watches := h.watches.of_map (Table.map_reap pid fun _ => rfl)
  holds w hw := by
    -- the reaped child is dead, so no watch loses the pid of a running one
    obtain ⟨c₀, hc₀, hpid, hdead⟩ := hen
    obtain ⟨v, hv, rfl⟩ := mem_map.1 hw
    intro hk c hc hname halive
    have hc := (mem_filter.1 hc).1
    by_cases hp : v.qPid = pid
    · simp only [hp, beq_self_eq_true, if_true] at hk hname
      have hvc := h.holds v hv hk c hc hname halive
      have : c₀ = c := h.pid_inj hc₀ hc (by rw [hpid, ← hp, hvc])
      rw [← this, hdead] at halive
      cases halive
    · simp only [beq_iff_eq, hp, if_false] at hk hname ⊢
      exact h.holds v hv hk c hc hname halive
  pos c hc := h.pos c (mem_filter.1 hc).1
  pids := h.pids.sublist filter_sublist
  alone := h.alone.sublist filter_sublist

/-- The dispatched watch had no pid, so no child of its name is running, and no other watch has its
name. -/
theorem dispatch {i : Nat} {e : Watch} {pid : Nat}
    (hen : a.Enabled (.dispatch i e pid)) : Exclusive (a.apply (.dispatch i e pid)) := by
  obtain ⟨hi, hready, -, hfresh⟩ := hen
  simp only [Watch.ready, Bool.and_eq_true, beq_iff_eq, Bool.not_eq_true'] at hready
  have he : e ∈ a.tab.watchList := mem_of_getElem? hi
  have hidle : ∀ c ∈ a.ch, c.qName = e.qName → c.dead = true := by
    intro c hc hname
    by_contra halive
    have hpid := h.holds e he hready.1.1.1 c hc hname (by simpa using halive)
    exact h.pos c hc (hpid.symm.trans hready.1.2)
  have hwatches : NoClash (a.tab.dispatch i e pid).watchList :=
    h.watches.of_map (Table.map_dispatch hi rfl)
  -- a watch after the dispatch is the dispatched one or another one with another name
  have hcases : ∀ w ∈ (a.tab.dispatch i e pid).watchList,
      w = { e with dirty := false, qPid := pid } ∨ (w ∈ a.tab.watchList ∧ ¬ e.Clash w) := by
    intro w hw
    obtain ⟨j, hj⟩ := mem_iff_getElem?.1 hw
    simp only [Table.dispatch, getElem?_set] at hj
    split at hj
    · split at hj
      · exact .inl (Option.some.inj hj).symm
      · cases hj
    · next hij => exact .inr ⟨mem_of_getElem? hj, h.watches.ne_of_getElem? hi hj hij⟩
  have hold : ∀ w ∈ (a.tab.dispatch i e pid).watchList, w.Holds a.ch := by
    intro w hw hk c hc hname halive
    rcases hcases w hw with rfl | ⟨hw, -⟩
    · rw [hidle c hc hname] at halive
      cases halive
    · exact h.holds w hw hk c hc hname halive
  by_cases hz : pid = 0
  · simp only [Abs.apply, if_pos hz]
    exact ⟨hwatches, hold, h.pos, h.pids, h.alone⟩
  · simp only [Abs.apply, if_neg hz]
    refine ⟨hwatches, fun w hw hk c hc hname halive => ?_, ?_, ?_, ?_⟩
    · rcases mem_cons.1 hc with rfl | hc
      · rcases hcases w hw with rfl | ⟨-, hne⟩
        · rfl
        · exact absurd ⟨hready.1.1.1, hk, hname⟩ hne
      · exact hold w hw hk c hc hname halive
    · exact forall_mem_cons.2 ⟨hz, h.pos⟩
    · exact pairwise_cons.2 ⟨fun c hc heq => hfresh hz c hc heq.symm, h.pids⟩
    · exact pairwise_cons.2 ⟨fun c hc heq => .inr (hidle c hc heq.symm), h.alone⟩

theorem died (pid : Nat) : Exclusive (a.apply (.died pid)) where
  watches := h.watches
  holds w hw hk c hc hname halive := by
    rcases mem_modifyFirst hc with hc | ⟨c', -, -, rfl⟩
    · exact h.holds w hw hk c hc hname halive
    · cases halive
  pos c hc := by
    rcases mem_modifyFirst hc with hc | ⟨c', hc', -, rfl⟩
    · exact h.pos c hc
    · exact h.pos c' hc'
  pids := by
    have hp : (a.ch.map Child.pid).Pairwise (· ≠ ·) := pairwise_map.2 h.pids
    rw [← map_modifyFirst (p := (·.pid == pid)) (f := ({ · with dead := true })) fun _ => rfl] at hp
    exact pairwise_map.1 hp
  alone := by
    refine pairwise_modifyFirst (fun c c' hr hname => ?_) (fun c c' hr hname => ?_) h.alone
    · exact .inl rfl
    · exact .inr rfl

/-- Every action keeps the invariant, but for the registration of a queue whose name is still in
use. -/
theorem apply {act : Act} (hen : a.Enabled act)
    (hreg : ∀ name wfd ino isEmpty, act = .register name wfd ino .queueDir isEmpty →
      (∀ w ∈ a.tab.watchList, ¬ isQueueWatch name w) ∧
        ∀ c ∈ a.ch, c.qName = name → c.dead = true) : Exclusive (a.apply act) := by
  cases act with
  | mark sel =>
    exact h.of_map (Table.map_markQueueDirty fun _ => rfl) (Table.map_markQueueDirty fun _ => rfl)
  | register name wfd ino kind isEmpty =>
    refine h.register ?_ ?_
    all_goals rintro rfl
    · exact (hreg name wfd ino isEmpty rfl).1
    · exact (hreg name wfd ino isEmpty rfl).2
  | unwatch ino => exact h.unwatch ino
  | applyPause ents =>
    exact h.of_map (Table.map_applyPause ents fun _ _ => rfl)
      (Table.map_applyPause ents fun _ _ => rfl)
  | reap pid => exact h.reap hen
  | dispatch i e pid => exact h.dispatch hen
  | died pid => exact h.died pid

end

end Exclusive

/-! ## The workers of the system -/

/-- The step registers a queue only when no watch and no running worker of its name is left. -/
def registersAlone (s : Sys) (l : Label) : Bool :=
  match s.act l with
  | some (.register name _ _ .queueDir _) =>
    s.d.tab.watchList.all (!isQueueWatch name ·) && s.ws.all fun w => w.qName != name || w.pc.dead
  | _ => true

section
variable {s : Sys}

theorem exclusive_of_reach (h : system.ReachBy (registersAlone · ·) s) : Exclusive s.abs := by
  refine abs_invariant h ⟨.nil, nofun, nofun, .nil, .nil⟩ fun s l a hok hP ha hen => hP.apply hen ?_
  rintro name wfd ino isEmpty rfl
  simp only [registersAlone, ha, Bool.and_eq_true, all_eq_true, Bool.not_eq_true', Bool.or_eq_true,
    bne_iff_ne] at hok
  refine ⟨fun w hw => by simp [hok.1 w hw], fun c hc hname => ?_⟩
  obtain ⟨w, hw, rfl⟩ := mem_map.1 hc
  exact (hok.2 w hw).resolve_left fun hne => hne hname

theorem Exclusive.pids_nodup (h : Exclusive s.abs) : (s.ws.map (·.pid)).Nodup := by
  have hpids := h.pids
  rw [Sys.abs, pairwise_map] at hpids
  exact pairwise_map.2 hpids

theorem Exclusive.eq_of_running (h : Exclusive s.abs) {w w' : Worker} (hw : w ∈ s.ws)
    (hw' : w' ∈ s.ws) (hname : w.qName = w'.qName) (halive : w.pc.dead = false)
    (halive' : w'.pc.dead = false) : w = w' := by
  by_contra hne
  have hsymm : Std.Symm fun v v' : Worker =>
      v.qName = v'.qName → v.pc.dead = true ∨ v'.pc.dead = true :=
    ⟨fun _ _ hp he => (hp he.symm).symm⟩
  have hpair : s.ws.Pairwise fun v v' : Worker =>
      v.qName = v'.qName → v.pc.dead = true ∨ v'.pc.dead = true := pairwise_map.1 h.alone
  rcases hpair.forall hw hw' hne hname with hd | hd
  · simp [halive] at hd
  · simp [halive'] at hd

/-- In a run that registers a queue only while its name is not in use, no two workers of one queue
name run at once. -/
theorem workers_exclusive (h : system.ReachBy (registersAlone · ·) s) :
    s.ws.Pairwise fun w w' => w.qName = w'.qName → w.pc.dead = true ∨ w'.pc.dead = true :=
  pairwise_map.1 (exclusive_of_reach h).alone

/-- A worker of `udev` is in its handler when a second event arrives. -/
def Fixture.handlerRun : List Label :=
  dirtyRun ++ [.daemon .go, .daemon .go, .daemon (.pid 100)] ++ List.replicate 4 (.daemon .go) ++
    List.replicate 6 (.worker 100 .go)

theorem workers_exclusive_handlerRun :
    ∃ s, system.ReachBy (registersAlone · ·) s ∧ (∃ w ∈ s.ws, w.pc = .handler) ∧
      s.ws.Pairwise fun w w' => w.qName = w'.qName → w.pc.dead = true ∨ w'.pc.dead = true := by
  obtain ⟨s, hr, hc⟩ := Lts.reachBy_of_exec Fixture.init_start registersAlone Fixture.handlerRun
    (·.ws.any (·.pc == .handler)) (by decide)
  exact ⟨s, hr, by simpa using hc, workers_exclusive hr⟩

/-- While the worker is in its handler, the queue is removed and made again with a new event. -/
def Fixture.recreateRun : List Label :=
  handlerRun ++ [.env (.rmQueue "udev"), .env (.destroy 4), .env (.mkQueue 0 "udev" 5),
    .env (.publish "udev" 0 (file 10 "event")), .daemon (.ready [.inotify]), .daemon .go,
    .daemon (.read 3)] ++ List.replicate 8 (.daemon .go) ++ [.daemon (.pid 101)]

/-- A queue that is removed and made again while its worker runs gets a second worker. -/
theorem not_workers_exclusive : ¬ ∀ s, system.Reach s →
    s.ws.Pairwise fun w w' => w.qName = w'.qName → w.pc.dead = true ∨ w'.pc.dead = true := by
  intro hall
  obtain ⟨s, hr, hc⟩ := Lts.reach_of_exec Fixture.init_start Fixture.recreateRun
    (fun s : Sys => !decide (s.ws.Pairwise fun w w' : Worker =>
      w.qName = w'.qName → w.pc.dead = true ∨ w'.pc.dead = true)) (by decide)
  simp only [Bool.not_eq_true', decide_eq_false_iff_not] at hc
  exact hc (hall s hr)

end

end MakeInitrd.Ueventd
