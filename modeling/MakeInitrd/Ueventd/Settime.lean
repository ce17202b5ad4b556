import MakeInitrd.Ueventd.Timers

/-!
# The time that `update_timerfd` arms the timer with

The loops keep the smallest due time after now (`nextDue`), as an unsigned number, and the end of
the function converts it to a `time_t`. A name that `strtoull` reads as a number of `2 ^ 63` or more
makes it a negative one, which `timerfd_settime` refuses: the daemon ends (`settime_returns`). A
minus sign is enough, and `release_event_after` writes one when the delay reaches back before the
start.
-/

namespace MakeInitrd.Ueventd

/-- The due time of an entry that the inner loop does not skip; 0 for the others. -/
def dueOf (ent : Dirent) : Nat :=
  if ent.hidden || ent.dType != .reg then 0 else parseTimerDue ent.dName

theorem dueOf_le (ent : Dirent) : dueOf ent ≤ ullongMax := by
  rw [dueOf]
  split
  · exact Nat.zero_le _
  · rw [parseTimerDue]
    split
    · exact Nat.zero_le _
    · exact Nat.le_sub_one_of_lt (CNum.strtoul_value_lt 10 _)

theorem timerEntry_eq (s : Sys) (now : Nat) (q : String) (ent : Dirent) : timerEntry s now q ent =
    if dueOf ent = 0 then s
    else if now < dueOf ent then
      { s with d.next := if dueOf ent < s.d.next then dueOf ent else s.d.next }
    else s.push [.moveTimer q ent.dName] := by
  rw [timerEntry, dueOf]
  split <;> rfl

/-- `next` after the entries. -/
def nextDue (now : Nat) (es : List (String × Dirent)) : Nat :=
  es.foldl (fun next x => if now < dueOf x.2 ∧ dueOf x.2 < next then dueOf x.2 else next) ullongMax

section
variable {now : Nat} {es : List (String × Dirent)} {n : Nat}

theorem nextDue_concat (q : String) (ent : Dirent) : nextDue now (es ++ [(q, ent)]) =
    if now < dueOf ent ∧ dueOf ent < nextDue now es then dueOf ent else nextDue now es := by
  rw [nextDue, List.foldl_append]
  rfl

theorem nextDue_skip {q : String} {ent : Dirent} (h : dueOf ent ≤ now) :
    nextDue now (es ++ [(q, ent)]) = nextDue now es := by
  rw [nextDue_concat, if_neg]
  omega

theorem nextDue_le {x : String × Dirent} (hx : x ∈ es) (hnow : now < dueOf x.2) :
    nextDue now es ≤ dueOf x.2 := by
  induction es using List.reverseRecOn with
  | nil => cases hx
  | append_singleton es y ih =>
    rw [nextDue_concat]
    rcases List.mem_append.1 hx with hx | hx
    · have := ih hx
      split <;> omega
    · obtain rfl := List.mem_singleton.1 hx
      split <;> omega

theorem nextDue_mem (h : nextDue now es ≠ ullongMax) :
    ∃ x ∈ es, now < dueOf x.2 ∧ nextDue now es = dueOf x.2 := by
  induction es using List.reverseRecOn with
  | nil => exact absurd rfl h
  | append_singleton es y ih =>
    rw [nextDue_concat] at h ⊢
    split at h
    · next hy => exact ⟨y, by simp, hy.1, by rw [if_pos hy]⟩
    · next hy =>
      obtain ⟨x, hx, hnow, heq⟩ := ih h
      exact ⟨x, List.mem_append_left _ hx, hnow, by rw [if_neg hy, heq]⟩

end

/-- The daemon is about to run `update_timerfd`: the directories are in order, and no other file has
the name of a queue directory that is to be made. -/
structure UpdateCall (s : Sys) (rest : List Task) : Prop where
  running : s.d.status = .running
  todo : s.d.todo = .updateTimerfd :: rest
  wellFormed : s.k.timer.WellFormed
  free : ∀ q ∈ timerQueues s.k.timer, s.k.filter.others.any (·.dName == q) = false

/-- The timer is set to a time that `timerfd_settime` accepts. -/
def SettimeValid (s : Sys) (rest : List Task) : Prop :=
  Returns rest.length (fun s' => s'.d.status ≠ .fatal .settime) s

section
variable {s₀ s : Sys} {rest : List Task} {D : List (String × Dirent)}

/-- What the loops keep whatever the names are. -/
structure Reading (s₀ : Sys) (D : List (String × Dirent)) (s : Sys) : Prop where
  status : s.d.status = .running
  next : s.d.next = nextDue s₀.k.now D
  lookup : ∀ q, q ∉ D.map (·.1) → s.k.timer.lookup q = s₀.k.timer.lookup q
  others : s.k.filter.others = s₀.k.filter.others

theorem Reading.read (h : Reading s₀ D s) (q : String) (ent : Dirent) {n : Nat} {ts : List Task}
    (hn : n = nextDue s₀.k.now (D ++ [(q, ent)])) :
    Reading s₀ (D ++ [(q, ent)]) { s with d.next := n, d.todo := ts } where
  status := h.status
  next := hn
  lookup q' hq := h.lookup q' fun hmem =>
    hq (by rw [List.map_append]; exact List.mem_append_left _ hmem)
  others := h.others

theorem Reading.opened (h : Reading s₀ D s) {q : String} {ent : Dirent} {s' : Sys}
    (hopen : Opened q s s')
    (hn : nextDue s₀.k.now (D ++ [(q, ent)]) = nextDue s₀.k.now D) :
    Reading s₀ (D ++ [(q, ent)]) s' where
  status := hopen.status.trans h.status
  next := by rw [hopen.next, h.next, hn]
  lookup q' hq := by
    rw [hopen.timer]
    exact h.lookup q' fun hmem => hq (by rw [List.map_append]; exact List.mem_append_left _ hmem)
  others := hopen.others.trans h.others

theorem Reading.renamed {q name : String} {ent : Dirent} {s' : Sys}
    (h : Reading s₀ (D ++ [(q, ent)]) s)
    (htask : runTask s .go (.renameTimer q name) = some s') : Reading s₀ (D ++ [(q, ent)]) s' := by
  cases hk : renameTimer s.k q name with
  | none =>
    simp only [runTask, hk] at htask
    exact Option.some.inj htask ▸ h
  | some k =>
    simp only [runTask, hk] at htask
    cases htask
    obtain ⟨ev, e, evs, -, -, rfl⟩ := renameTimer_eq hk
    refine ⟨h.status, h.next, fun q' hq => ?_, h.others⟩
    have hne : q' ≠ q := by
      rintro rfl
      simp at hq
    rw [QueueTree.lookup_modify, if_neg hne, Option.map_id_apply]
    exact h.lookup q' hq

/-- A turn of the inner loop: it changes nothing but `next`, or `move_timer_event` runs. -/
theorem Reading.turn (h : UpdateCall s₀ rest) (hI : Reading s₀ D s) {q : String} {ent : Dirent}
    {ts : List Task}
    (hnext : IsNext s₀.k.timer D q ent) (htodo : s.d.todo = .timerEntry s₀.k.now q ent :: ts)
    {P : Sys → Prop}
    (hread : ∀ n, n = nextDue s₀.k.now (D ++ [(q, ent)]) → dueOf ent = 0 ∨ s₀.k.now < dueOf ent →
      P { s with d.next := n, d.todo := ts })
    (hmove : dueOf ent ≠ 0 → dueOf ent ≤ s₀.k.now →
      ∀ s', Moved q ent.dName { s with d.todo := .moveTimer q ent.dName :: ts } s' → P s') :
    Returns ts.length (fun s' => s'.d.todo = ts ∧ P s') s := by
  have hq : q ∈ timerQueues s₀.k.timer := (mem_timerEntries.1 hnext.mem).1
  have htask (c : Choice) : runTask { s with d.todo := ts } c (.timerEntry s₀.k.now q ent) =
      some (timerEntry { s with d.todo := ts } s₀.k.now q ent) := rfl
  rw [timerEntry_eq] at htask
  split at htask
  · next hzero =>
    refine .of_eq hI.status htodo (Nat.le_refl _) (fun c _ => htask c)
      (.done (Nat.le_refl _) ⟨rfl, ?_⟩)
    exact hread _ (hI.next.trans (nextDue_skip (by omega)).symm) (.inl hzero)
  · next hpos =>
    split at htask
    · next hnow =>
      refine .of_eq hI.status htodo (Nat.le_refl _) (fun c _ => htask c)
        (.done (Nat.le_refl _) ⟨rfl, ?_⟩)
      refine hread _ ?_ (.inr hnow)
      rw [nextDue_concat, ← hI.next]
      show (if dueOf ent < s.d.next then dueOf ent else s.d.next) = _
      split <;> split <;> omega
    · next hnow =>
      let s₁ : Sys := { s with d.todo := .moveTimer q ent.dName :: ts }
      refine .of_eq (u := s₁) hI.status htodo (Nat.le_refl _) (fun c _ => htask c) ?_
      have hothers : s₁.k.filter.others.any (·.dName == q) = false := by
        show s.k.filter.others.any _ = false
        rw [hI.others]
        exact h.free q hq
      refine (moveTimer_returns (s := s₁) hI.status rfl (ne_dot_of_mem_timerQueues h.wellFormed hq)
        hothers).mono ?_
      exact fun s' hmoved => ⟨hmoved.1, hmove hpos (Nat.le_of_not_lt hnow) s' hmoved.2⟩

theorem reading_inv (h : UpdateCall s₀ rest) : TimerInv s₀.k.timer s₀.k.now (Reading s₀) where
  todo D s ts hI := ⟨hI.status, hI.next, hI.lookup, hI.others⟩
  status D s hI := hI.status
  lookup D s q hI hq := hI.lookup q hq
  entry D q ent s ts hnext hI htodo := by
    refine hI.turn h hnext htodo (fun n hn _ => hI.read q ent hn) fun _ hdue s' hmoved => ?_
    rcases hmoved with ⟨-, hopen⟩ | ⟨s₂, hopen, -, -, htask⟩
    · exact hI.opened (hopen.of_todo s.d.todo s'.d.todo) (nextDue_skip hdue)
    · exact (hI.opened (hopen.of_todo s.d.todo s₂.d.todo) (nextDue_skip hdue)).renamed htask

/-- The call ends the daemon if the earliest time is no `time_t`. -/
theorem settime_returns (h : UpdateCall s₀ rest) :
    Returns rest.length (fun s' => s'.d.status =
      if nextDue s₀.k.now (timerEntries s₀.k.timer) ≠ ullongMax ∧
      2 ^ 63 ≤ nextDue s₀.k.now (timerEntries s₀.k.timer) then .fatal .settime
        else .running) s₀ := by
  refine timers_rule (reading_inv h) h.running h.todo h.wellFormed ?_ fun s htodo hI => ?_
  · exact ⟨h.running, rfl, fun _ _ => rfl, rfl⟩
  · rw [← hI.next]
    by_cases hmax : s.d.next = ullongMax
    · rw [if_neg fun hne => hne.1 hmax]
      refine .of_eq hI.status htodo (Nat.le_refl _)
        (fun c _ => by simp only [runTask, hmax, if_true]; rfl) ?_
      exact .done (Nat.le_refl _) hI.status
    · by_cases hbig : 2 ^ 63 ≤ s.d.next
      · rw [if_pos ⟨hmax, hbig⟩]
        refine .of_eq hI.status htodo (Nat.le_refl _)
          (fun c _ => by simp only [runTask, hmax, hbig, if_true, if_false]; rfl) ?_
        exact .done (Nat.zero_le _) rfl
      · rw [if_neg fun hbad => hbig hbad.2]
        refine .of_eq hI.status htodo (Nat.le_refl _)
          (fun c _ => by simp only [runTask, hmax, hbig, if_false]; rfl) ?_
        exact .done (Nat.le_refl _) hI.status

/-- The timer can be set exactly where the smallest due time after now fits a `time_t`: no due time
after now is too large, or there is one that is not. -/
theorem settimeValid_iff (s : Sys) (rest : List Task) (h : UpdateCall s rest) :
    SettimeValid s rest ↔
    (∀ x ∈ timerEntries s.k.timer, s.k.now < dueOf x.2 → dueOf x.2 < 2 ^ 63 ∨
      dueOf x.2 = ullongMax) ∨
      ∃ x ∈ timerEntries s.k.timer, s.k.now < dueOf x.2 ∧ dueOf x.2 < 2 ^ 63 := by
  have hreturns := settime_returns h
  by_cases hbad : nextDue s.k.now (timerEntries s.k.timer) ≠ ullongMax ∧ 2 ^ 63 ≤
    nextDue s.k.now (timerEntries s.k.timer)
  · simp only [if_pos hbad] at hreturns
    refine iff_of_false (fun hvalid => ?_) ?_
    · obtain ⟨s', -, hfatal, hnot⟩ := (Lts.Ends.and hreturns hvalid).exists
      exact hnot hfatal
    · obtain ⟨x, hx, hnow, heq⟩ := nextDue_mem hbad.1
      rintro (hall | ⟨y, hy, hynow, hsmall⟩)
      · rcases hall x hx hnow with hsmall | hmax
        · omega
        · exact hbad.1 (heq.trans hmax)
      · have := nextDue_le hy hynow
        omega
  · simp only [if_neg hbad] at hreturns
    refine iff_of_true (hreturns.mono fun s' hrun => by rw [hrun]; nofun) ?_
    by_cases hmax : nextDue s.k.now (timerEntries s.k.timer) = ullongMax
    · refine .inl fun x hx hnow => ?_
      have hle := nextDue_le hx hnow
      have hlt := dueOf_le x.2
      omega
    · obtain ⟨x, hx, hnow, heq⟩ := nextDue_mem hmax
      refine .inr ⟨x, hx, hnow, ?_⟩
      have := not_and.1 hbad hmax
      omega

end

/-! ## Names that `release_event_after` makes -/

/-- An integer of the shell, which computes with 64 bits. -/
def shellInt (v : Int) : Int :=
  v.bmod (2 ^ 64)

/-- The name under which `release_event_after` publishes the timer, with `num` from `timestamp` and
`tmp` from `mktemp`. -/
def releaseEventAfter (now delay : Int) (name num tmp : String) : String :=
  toString (shellInt (now + delay)) ++ "." ++ name ++ "." ++ num ++ tmp

namespace Fixture

/-- The daemon calls `update_timerfd` 3 seconds after the start, with one timer in the queue `udev`.
-/
def oneTimer (name : String) : Sys :=
  { k := { kernel with timer := ⟨3, [("udev", ⟨5, [file 9 name]⟩)], []⟩, now := 3 }
    d := { Daemon.start with todo := [.updateTimerfd] }
    ws := [] }

theorem updateCall_oneTimer (name : String) : UpdateCall (oneTimer name) [] :=
  ⟨rfl, rfl, ⟨by simp [oneTimer], by simp [oneTimer]⟩, by simp [oneTimer, kernel]⟩

end Fixture

/-- A timer that is due in 4 seconds can be set. -/
theorem settimeValid_oneTimer :
    SettimeValid (Fixture.oneTimer (releaseEventAfter 3 4 "retry.event" "3.5" ".tmpfile")) [] :=
  (settimeValid_iff _ [] (Fixture.updateCall_oneTimer _)).2 (by decide +kernel)

/-- A delay of -5 seconds makes the name start with `-2`, which is `2 ^ 64 - 2` for `strtoull`: the
daemon dies. -/
theorem not_settimeValid :
    UpdateCall (Fixture.oneTimer (releaseEventAfter 3 (-5) "retry.event" "3.5" ".tmpfile")) [] ∧
      ¬ SettimeValid (Fixture.oneTimer (releaseEventAfter 3 (-5) "retry.event" "3.5" ".tmpfile"))
        [] := by
  have hcall := Fixture.updateCall_oneTimer
    (releaseEventAfter 3 (-5) "retry.event" "3.5" ".tmpfile")
  refine ⟨hcall, fun hvalid => ?_⟩
  obtain ⟨s', -, hfatal, hnot⟩ := (Lts.Ends.and (settime_returns hcall) hvalid).exists
  rw [if_pos (by decide +kernel)] at hfatal
  exact hnot hfatal

end MakeInitrd.Ueventd
