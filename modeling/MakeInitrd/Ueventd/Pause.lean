import MakeInitrd.Ueventd.Table

/-!
# Pauses

`apply_pause` flags the queue watches it finds in the list; a watch that `watch_path` adds later
takes over `pause_all` but not a pause of its own name. So a queue that is paused by name before it
is watched is dispatched all the same (`not_dispatch_not_paused`). In the runs where no such queue
is registered, a worker is only started for a queue that the last `apply_pause` did not find paused
(`dispatch_not_paused`).
-/

namespace MakeInitrd.Ueventd

/-- The directory entries pause the queue: one of them has its name or is `.all`. -/
def Pauses (seen : List String) (queue : String) : Prop :=
  queue ∈ seen ∨ ".all" ∈ seen

/-- A queue watch is flagged `F_PAUSED` if the entries pause its queue. -/
def Watch.Heeds (seen : List String) (w : Watch) : Prop :=
  w.kind = .queueDir → Pauses seen w.qName → w.paused = true

namespace Table

/-- The flags and `pause_all` agree with what the last `apply_pause` has found. -/
structure Paused (t : Table) : Prop where
  all : t.pauseAll = true ↔ ".all" ∈ t.pauseSeen
  flags : ∀ w ∈ t.watchList, w.Heeds t.pauseSeen

/-! ## The loop of `apply_pause` -/

theorem pauseLoop_all : ∀ (ents : List Dirent) (l : List Watch),
    (pauseLoop ents l).1 = true ↔ ".all" ∈ (ents.filter isSubdir).map (·.dName)
  | [], _ => by simp [pauseLoop]
  | ent :: ents, l => by
    have ih := pauseLoop_all ents
    rw [pauseLoop, List.filter_cons]
    cases hsub : isSubdir ent with
    | false => simp only [Bool.not_false, if_true, ih, Bool.false_eq_true, if_false]
    | true =>
      simp only [Bool.not_true, Bool.false_eq_true, if_false, if_true, List.map_cons,
        List.mem_cons, beq_iff_eq]
      split
      · next h => simp [h]
      · next h => rw [ih, or_iff_right fun he => h he.symm]

theorem pauseWatch_spec (ent : Dirent) (w : Watch) :
    (pauseWatch ent w).kind = w.kind ∧ (pauseWatch ent w).qName = w.qName ∧
      (w.paused = true → (pauseWatch ent w).paused = true) ∧
      (w.kind = .queueDir → ent.dName = ".all" ∨ ent.dName = w.qName →
        (pauseWatch ent w).paused = true) := by
  unfold pauseWatch
  split
  · exact ⟨rfl, rfl, fun _ => rfl, fun _ _ => rfl⟩
  · next h =>
    refine ⟨rfl, rfl, id, fun hk hn => absurd ?_ h⟩
    simpa [hk] using hn

/-- After the loop every watch heeds the pauses it has found. -/
theorem pauseLoop_heeds : ∀ (ents : List Dirent) (l : List Watch) (w : Watch),
    w ∈ (pauseLoop ents l).2 → w.Heeds ((ents.filter isSubdir).map (·.dName)) ∧
      ∃ v ∈ l, w.kind = v.kind ∧ w.qName = v.qName ∧ (v.paused = true → w.paused = true)
  | [], _, w, hw => ⟨fun _ hp => by simp [Pauses] at hp, w, hw, rfl, rfl, id⟩
  | ent :: ents, l, w, hw => by
    rw [pauseLoop] at hw
    rw [List.filter_cons]
    cases hsub : isSubdir ent with
    | false =>
      simp only [hsub, Bool.not_false, if_true] at hw
      simpa using pauseLoop_heeds ents l w hw
    | true =>
      simp only [hsub, Bool.not_true, Bool.false_eq_true, if_false, beq_iff_eq] at hw
      simp only [if_true, List.map_cons]
      split at hw
      · -- at `.all` the loop stops, with every queue watch flagged
        next hall =>
        obtain ⟨v, hv, rfl⟩ := List.mem_map.1 hw
        obtain ⟨hk, hn, hp, hset⟩ := pauseWatch_spec ent v
        exact ⟨fun hq _ => hset (hk ▸ hq) (.inl hall), v, hv, hk, hn, hp⟩
      · next hall =>
        obtain ⟨hh, u, hu, hk, hn, hp⟩ := pauseLoop_heeds ents _ w hw
        obtain ⟨v, hv, rfl⟩ := List.mem_map.1 hu
        obtain ⟨hk', hn', hp', hset⟩ := pauseWatch_spec ent v
        refine ⟨fun hq hpause => ?_, v, hv, hk.trans hk', hn.trans hn', fun h => hp (hp' h)⟩
        simp only [Pauses, List.mem_cons] at hpause
        rcases hpause with (heq | hin) | (heq | hin)
        · exact hp (hset (hk'.symm.trans (hk.symm.trans hq)) (.inr (heq.symm.trans (hn.trans hn'))))
        · exact hh hq (.inl hin)
        · exact absurd heq.symm hall
        · exact hh hq (.inr hin)

theorem paused_applyPause (t : Table) (ents : List Dirent) : (t.applyPause ents).Paused where
  all := pauseLoop_all ents _
  flags w hw := (pauseLoop_heeds ents _ w hw).1

variable {t : Table}

theorem Paused.of_map {t' : Table} (h : t.Paused) (hall : t'.pauseAll = t.pauseAll)
    (hseen : t'.pauseSeen = t.pauseSeen)
    (hmap : t'.watchList.map (Watch.Heeds t.pauseSeen) =
      t.watchList.map (Watch.Heeds t.pauseSeen)) :
    t'.Paused where
  all := by rw [hall, hseen]; exact h.all
  flags := hseen ▸ Watch.forall_of_map hmap h.flags

theorem markQueueDirty_pauses (sel : Watch → Bool) : (t.markQueueDirty sel).pauseAll = t.pauseAll ∧
      (t.markQueueDirty sel).pauseSeen = t.pauseSeen := by
  unfold markQueueDirty
  split
  · exact ⟨rfl, rfl⟩
  · split <;> exact ⟨rfl, rfl⟩

theorem Paused.register (h : t.Paused) {name : String} {wfd ino : Nat} {kind : WatchKind}
    {isEmpty : Bool} (hname : kind = .queueDir → name ∈ t.pauseSeen → ".all" ∈ t.pauseSeen) :
    (t.register name wfd ino kind isEmpty).Paused where
  all := h.all
  flags w hw := by
    rcases List.mem_cons.1 hw with rfl | hw
    · intro hk hp
      exact h.all.2 (hp.elim (hname hk) id)
    · exact h.flags w hw

/-- Every action keeps the agreement, but for the registration of a queue that is paused by name. -/
theorem Paused.apply {a : Abs} {act : Act} (h : a.tab.Paused) (hen : a.Enabled act)
    (hreg : ∀ name wfd ino isEmpty, act = .register name wfd ino .queueDir isEmpty →
      name ∈ a.tab.pauseSeen → ".all" ∈ a.tab.pauseSeen) : (a.apply act).tab.Paused := by
  cases act with
  | mark sel =>
    obtain ⟨hall, hseen⟩ := markQueueDirty_pauses (t := a.tab) sel
    exact h.of_map hall hseen (map_markQueueDirty fun _ => rfl)
  | register name wfd ino kind isEmpty =>
    refine h.register fun hk => ?_
    cases hk
    exact hreg name wfd ino isEmpty rfl
  | unwatch ino => exact ⟨h.all, fun w hw => h.flags w (unwatchPath_sublist.subset hw)⟩
  | applyPause ents => exact paused_applyPause a.tab ents
  | reap pid => exact h.of_map rfl rfl (map_reap pid fun _ => rfl)
  | dispatch i e pid => exact h.of_map rfl rfl (map_dispatch hen.1 rfl)
  | died pid => exact h

end Table

/-! ## No worker for a paused queue -/

/-- The step does not register a queue that the last `apply_pause` found paused by its name alone.
-/
def registersUnpaused (s : Sys) (l : Label) : Bool :=
  match s.act l with
  | some (.register name _ _ .queueDir _) =>
    name ∉ s.d.tab.pauseSeen || ".all" ∈ s.d.tab.pauseSeen
  | _ => true

section
variable {s s' : Sys} {l : Label} {w : Worker}

theorem paused_of_reach (h : system.ReachBy (registersUnpaused · ·) s) : s.d.tab.Paused := by
  refine abs_invariant (P := fun a => a.tab.Paused) h ⟨by decide, nofun⟩ fun s l a hok hP ha hen =>
    hP.apply hen ?_
  rintro name wfd ino isEmpty rfl hin
  have hall : ".all" ∈ s.d.tab.pauseSeen := by
    simpa [registersUnpaused, ha, show name ∈ s.d.tab.pauseSeen from hin] using hok
  exact hall

/-- In a run that registers no queue paused by its name, no worker is started for a queue that the
pause directory named, or while it held `.all`, when it was last read. -/
theorem dispatch_not_paused (h : system.ReachBy (registersUnpaused · ·) s)
    (hs : system.step s l = some s') (hw : w ∈ s'.ws) (hnew : ∀ v ∈ s.ws, v.pid ≠ w.pid) :
    ¬ Pauses s.d.tab.pauseSeen w.qName := by
  obtain ⟨e, he, hready, hname⟩ := step_started hs hw hnew
  simp only [Watch.ready, Bool.and_eq_true, beq_iff_eq, Bool.not_eq_true'] at hready
  intro hp
  have hpaused := (paused_of_reach h).flags e he hready.1.1.1 (hname ▸ hp)
  rw [hready.2] at hpaused
  cases hpaused

/-- A queue `late` is paused, an event makes `udev` dirty, and the dispatch loop is at `udev`. -/
def Fixture.pauseRun : List Label :=
  boot ++ [.env (.mkPause 0 ⟨20, "late", .dir⟩), .env (.publish "udev" 0 (file 9 "event")),
    .daemon (.ready [.inotify]), .daemon .go, .daemon (.read 2)] ++ List.replicate 5 (.daemon .go)

theorem dispatch_not_paused_pauseRun : ∃ s s' w, system.ReachBy (registersUnpaused · ·) s ∧
    system.step s (.daemon (.pid 100)) = some s' ∧ w ∈ s'.ws ∧ (∀ v ∈ s.ws, v.pid ≠ w.pid) ∧
      s.d.tab.pauseSeen = ["late"] ∧ ¬ Pauses s.d.tab.pauseSeen w.qName := by
  obtain ⟨s, hr, hc⟩ := Lts.reachBy_of_exec Fixture.init_start registersUnpaused Fixture.pauseRun
    (fun s => s.ws.isEmpty && s.d.tab.pauseSeen == ["late"] &&
      (system.step s (.daemon (.pid 100))).any (!·.ws.isEmpty)) (by decide)
  simp only [Bool.and_eq_true, List.isEmpty_iff, beq_iff_eq, Option.any_eq_true,
    Bool.not_eq_true', List.isEmpty_eq_false_iff_exists_mem] at hc
  obtain ⟨⟨hws, hseen⟩, s', hs, w, hw⟩ := hc
  have hnew : ∀ v ∈ s.ws, v.pid ≠ w.pid := by simp [hws]
  exact ⟨s, s', w, hr, hs, hw, hnew, hseen, dispatch_not_paused hr hs hw hnew⟩

/-- The queue `late` is paused before it exists; its creation is read after the pause. -/
def Fixture.pausedLateRun : List Label :=
  boot ++ [.env (.mkPause 0 ⟨20, "late", .dir⟩), .env (.mkQueue 0 "late" 5),
    .env (.publish "late" 0 (file 9 "event")), .daemon (.ready [.inotify]), .daemon .go,
    .daemon (.read 2)] ++ List.replicate 9 (.daemon .go)

/-- A queue that is paused by name before it is watched gets a worker all the same. -/
theorem not_dispatch_not_paused : ¬ ∀ s s' l w, system.Reach s → system.step s l = some s' →
    w ∈ s'.ws → (∀ v ∈ s.ws, v.pid ≠ w.pid) → ¬ Pauses s.d.tab.pauseSeen w.qName := by
  intro hall
  obtain ⟨s, hr, hc⟩ := Lts.reach_of_exec Fixture.init_start Fixture.pausedLateRun
    (fun s => s.ws.isEmpty && (system.step s (.daemon (.pid 100))).any
      (·.ws.any fun w => w.qName ∈ s.d.tab.pauseSeen)) (by decide)
  simp only [Bool.and_eq_true, List.isEmpty_iff, Option.any_eq_true, List.any_eq_true,
    decide_eq_true_eq] at hc
  obtain ⟨hws, s', hs, w, hw, hp⟩ := hc
  exact hall s s' _ w hr hs hw (by simp [hws]) (.inl hp)

end

end MakeInitrd.Ueventd
