import MakeInitrd.Ueventd.System

/-!
# Event files in the queue directories

Which event files a tree of queue directories holds (`QueueTree.Holds`) after each change, and
`Kernel.Evolves`: the changes that neither lose a queue directory, a watch or an event nor add a
file to a watched queue directory without queueing an event for its watch. What other processes do
is of that kind as long as they remove no directory (`env_evolves`).
-/

namespace MakeInitrd.Ueventd

open List

namespace QueueTree

def Has (t : QueueTree) (queue : String) (ent : Dirent) : Prop :=
  ∃ d, t.lookup queue = some d ∧ ent ∈ d.ents

/-- A regular file with no leading dot lies in that queue's directory under that name. -/
def Holds (t : QueueTree) (queue name : String) : Prop :=
  ∃ ent, t.Has queue ent ∧ ent.isEvent = true ∧ ent.dName = name

/-- The inode number of the queue's directory. -/
def inoOf (t : QueueTree) (queue : String) : Option Nat :=
  (t.lookup queue).map (·.ino)

variable {t : QueueTree} {q q' name : String} {f : Dir → Dir} {i ino : Nat} {ent : Dirent}

theorem lookup_modify :
    (t.modify q f).lookup q' = (t.lookup q').map (if q' = q then f else id) := by
  unfold lookup modify
  simp only [find?_map, Option.map_map]
  have hp : ((fun p : String × Dir => p.1 == q') ∘ fun p => if p.1 == q then (p.1, f p.2) else p) =
      fun p => p.1 == q' := by
    funext p
    simp only [Function.comp_apply]
    split <;> rfl
  rw [hp]
  cases h : t.dirs.find? (·.1 == q') with
  | none => rfl
  | some p =>
    have hq : p.1 = q' := by simpa using find?_some h
    simp only [Option.map_some, Function.comp_apply, hq, beq_iff_eq]
    split <;> rfl

theorem lookup_mkdir_of_ne (h : q' ≠ q) : (t.mkdir i q ino).lookup q' = t.lookup q' := by
  have hne : (q == q') = false := by simpa using h.symm
  unfold lookup mkdir
  rw [find?_append, find?_cons, hne]
  simp only
  rw [← find?_append, take_append_drop]

theorem lookup_mkdir_self (h : t.lookup q = none) :
    (t.mkdir i q ino).lookup q = some ⟨ino, []⟩ := by
  have hn : (t.dirs.take i).find? (·.1 == q) = none := by
    simp only [lookup, Option.map_eq_none_iff, find?_eq_none] at h
    exact find?_eq_none.2 fun p hp => h p (mem_of_mem_take hp)
  simp [lookup, mkdir, find?_append, hn]

theorem inoOf_modify (hf : ∀ d, (f d).ino = d.ino) : (t.modify q f).inoOf q' = t.inoOf q' := by
  simp only [inoOf, lookup_modify, Option.map_map]
  split
  · exact Option.map_congr fun d _ => hf d
  · rfl

theorem inoOf_mkdir (h : t.lookup q = none) {n : Nat} (hn : t.inoOf q' = some n) :
    (t.mkdir i q ino).inoOf q' = some n := by
  have hne : q' ≠ q := by
    rintro rfl
    simp [inoOf, h] at hn
  rw [inoOf, lookup_mkdir_of_ne hne]
  exact hn

theorem Has.of_modify (h : (t.modify q f).Has q' ent) : (q' ≠ q ∧ t.Has q' ent) ∨
    (q' = q ∧ ∃ d, t.lookup q = some d ∧ ent ∈ (f d).ents) := by
  obtain ⟨d, hd, he⟩ := h
  rw [lookup_modify] at hd
  obtain ⟨d', hd', rfl⟩ := Option.map_eq_some_iff.1 hd
  by_cases hq : q' = q
  · rw [if_pos hq] at he
    exact .inr ⟨hq, d', hq ▸ hd', he⟩
  · rw [if_neg hq] at he
    exact .inl ⟨hq, d', hd', he⟩

theorem Has.of_remove {old : String} (h : (t.modify q (·.remove old)).Has q' ent) :
    t.Has q' ent ∧ (q' = q → ent.dName ≠ old) := by
  rcases h.of_modify with ⟨hq, h⟩ | ⟨rfl, d, hd, he⟩
  · exact ⟨h, fun heq => absurd heq hq⟩
  · obtain ⟨he, hne⟩ := mem_filter.1 he
    exact ⟨⟨d, hd, he⟩, fun _ => by simpa using hne⟩

theorem mem_put {d : Dir} {e : Dirent} (h : e ∈ (d.put i ent).ents) : e = ent ∨ e ∈ d.ents := by
  simp only [Dir.put, mem_append, mem_cons] at h
  rcases h with h | rfl | h
  · exact .inr (mem_filter.1 (mem_of_mem_take h)).1
  · exact .inl rfl
  · exact .inr (mem_filter.1 (mem_of_mem_drop h)).1

theorem Has.of_put {e : Dirent} (h : (t.modify q (·.put i ent)).Has q' e) :
    t.Has q' e ∨ (q' = q ∧ e = ent) := by
  rcases h.of_modify with ⟨-, h⟩ | ⟨rfl, d, hd, he⟩
  · exact .inl h
  · exact (mem_put he).symm.imp (fun he => ⟨d, hd, he⟩) fun he => ⟨rfl, he⟩

theorem Has.of_mkdir (hn : t.lookup q = none) (h : (t.mkdir i q ino).Has q' ent) :
    t.Has q' ent := by
  obtain ⟨d, hd, he⟩ := h
  by_cases hq : q' = q
  · rw [hq, lookup_mkdir_self hn] at hd
    cases hd
    exact absurd he not_mem_nil
  · rw [lookup_mkdir_of_ne hq] at hd
    exact ⟨d, hd, he⟩

theorem Has.of_rmdir (h : (t.rmdir q).Has q' ent) : t.Has q' ent := by
  obtain ⟨d, hd, he⟩ := h
  have hne : q' ≠ q := by
    rintro rfl
    obtain ⟨p, hp, -⟩ := Option.map_eq_some_iff.1 hd
    have hmem := (mem_filter.1 (mem_of_find?_eq_some hp)).2
    have hname := find?_some hp
    simp only [bne_iff_ne, beq_iff_eq] at hmem hname
    exact hmem hname
  refine ⟨d, ?_, he⟩
  rw [← hd, lookup, lookup, rmdir, find?_filter]
  congr 2
  funext p
  by_cases hp : p.1 = q'
  · simp [hp, hne]
  · simp [hp]

theorem Holds.of_remove {old : String} (h : (t.modify q (·.remove old)).Holds q' name) :
    t.Holds q' name ∧ (q' = q → name ≠ old) := by
  obtain ⟨e, he, hev, rfl⟩ := h
  exact ⟨⟨e, he.of_remove.1, hev, rfl⟩, he.of_remove.2⟩

theorem Holds.of_put (h : (t.modify q (·.put i ent)).Holds q' name) :
    t.Holds q' name ∨ (q' = q ∧ name = ent.dName ∧ ent.isEvent = true) := by
  obtain ⟨e, he, hev, rfl⟩ := h
  rcases he.of_put with he | ⟨hq, rfl⟩
  · exact .inl ⟨e, he, hev, rfl⟩
  · exact .inr ⟨hq, rfl, hev⟩

theorem Holds.of_mkdir (hn : t.lookup q = none) (h : (t.mkdir i q ino).Holds q' name) :
    t.Holds q' name :=
  h.imp fun _ he => ⟨he.1.of_mkdir hn, he.2⟩

theorem Holds.of_rmdir (h : (t.rmdir q).Holds q' name) : t.Holds q' name :=
  h.imp fun _ he => ⟨he.1.of_rmdir, he.2⟩

end QueueTree

namespace Kernel

/-- The queue's directory is watched with `EV_QUEUE_MASK` under the watch descriptor `wd`. -/
def Watched (k : Kernel) (queue : String) (wd : Nat) : Prop :=
  ∃ ino, k.filter.inoOf queue = some ino ∧ ⟨wd, ino, evQueueMask⟩ ∈ k.watches

variable {k k' k'' : Kernel} {ino : Nat} {kind : EvKind} {name : String} {ev : InotifyEvent}

theorem mem_enqueue {new : InotifyEvent} :
    ev ∈ (k.enqueue new).inotify ↔ ev ∈ k.inotify ∨ ev = new := by
  unfold enqueue
  split
  · next hlast =>
    refine ⟨.inl, fun h => h.elim id ?_⟩
    rintro rfl
    exact mem_of_getLast? hlast
  · simp

theorem notify_eq (k : Kernel) (ino : Nat) (kind : EvKind) (name : String) :
    ∃ evs, k.notify ino kind name = { k with inotify := evs } := by
  unfold notify enqueue
  split
  · exact ⟨_, rfl⟩
  · split
    · split <;> exact ⟨_, rfl⟩
    · exact ⟨_, rfl⟩

theorem mem_notify (k : Kernel) (ino : Nat) (kind : EvKind) (name : String) {ev : InotifyEvent} :
    ev ∈ (k.notify ino kind name).inotify ↔ ev ∈ k.inotify ∨
      ∃ w, k.watches.find? (·.ino == ino) = some w ∧ kind ∈ w.mask ∧ ev = ⟨w.wd, kind, name⟩ := by
  unfold notify
  cases hw : k.watches.find? (·.ino == ino) with
  | none => simp
  | some w =>
    simp only [Option.some.injEq, exists_eq_left']
    split
    · next hm => simp [mem_enqueue, hm]
    · next hm => simp [hm]

theorem find_watch {l : List InotifyWatch} (hnodup : (l.map (·.ino)).Nodup) {w : InotifyWatch}
    (hw : w ∈ l) : l.find? (·.ino == w.ino) = some w := by
  induction l with
  | nil => cases hw
  | cons v l ih =>
    obtain ⟨hv, hl⟩ := nodup_cons.1 hnodup
    rw [find?_cons]
    rcases mem_cons.1 hw with rfl | hw
    · simp
    · have hne : (v.ino == w.ino) = false := by
        refine beq_eq_false_iff_ne.2 fun heq => hv ?_
        simpa only [heq] using mem_map_of_mem (f := (·.ino)) hw
      simp only [hne]
      exact ih hl hw

/-! ## Changes that lose nothing -/

/-- From `k` to `k'` no queue directory, watch, event or message is lost, no event file comes to
`uevent_dir`, and one that comes to a watched directory of `filter_dir` leaves an event for the
watch. -/
structure Evolves (k k' : Kernel) : Prop where
  dirs : ∀ q ino, k.filter.inoOf q = some ino → k'.filter.inoOf q = some ino
  watches : k'.watches = k.watches
  nextWd : k'.nextWd = k.nextWd
  orphans : k'.orphans = k.orphans
  pipe : k'.pipe = k.pipe
  keeps : ∀ ev ∈ k.inotify, ev ∈ k'.inotify
  kinds : ∀ ev ∈ k'.inotify, ev ∈ k.inotify ∨ ev.kind ≠ .deleteSelf
  ready : ∀ q name, k'.filter.Holds q name → k.filter.Holds q name ∨
    ((k.watches.map (·.ino)).Nodup → ∀ wd, k.Watched q wd → ∃ ev ∈ k'.inotify, ev.wd = wd)
  events : ∀ q name, k'.uevent.Holds q name → k.uevent.Holds q name

namespace Evolves

theorem trans (h : k.Evolves k') (h' : k'.Evolves k'') : k.Evolves k'' where
  dirs q ino hq := h'.dirs q ino (h.dirs q ino hq)
  watches := h'.watches.trans h.watches
  nextWd := h'.nextWd.trans h.nextWd
  orphans := h'.orphans.trans h.orphans
  pipe := h'.pipe.trans h.pipe
  keeps ev hev := h'.keeps ev (h.keeps ev hev)
  kinds ev hev := (h'.kinds ev hev).elim (h.kinds ev) .inr
  ready q name hq := by
    rcases h'.ready q name hq with hq | hev
    · refine (h.ready q name hq).imp_right fun hev hn wd hw => ?_
      obtain ⟨ev, hev, hwd⟩ := hev hn wd hw
      exact ⟨ev, h'.keeps ev hev, hwd⟩
    · refine .inr fun hn wd ⟨ino, hino, hw⟩ => ?_
      rw [h.watches] at hev
      exact hev hn wd ⟨ino, h.dirs q ino hino, h.watches ▸ hw⟩
  events q name hq := h.events q name (h'.events q name hq)

theorem of_trees (hw : k'.watches = k.watches) (hn : k'.nextWd = k.nextWd)
    (ho : k'.orphans = k.orphans) (hp : k'.pipe = k.pipe) (hi : k'.inotify = k.inotify)
    (hdirs : ∀ q ino, k.filter.inoOf q = some ino → k'.filter.inoOf q = some ino)
    (hready : ∀ q name, k'.filter.Holds q name → k.filter.Holds q name)
    (hevents : ∀ q name, k'.uevent.Holds q name → k.uevent.Holds q name) : k.Evolves k' where
  dirs := hdirs
  watches := hw
  nextWd := hn
  orphans := ho
  pipe := hp
  keeps _ hev := hi ▸ hev
  kinds _ hev := .inl (hi ▸ hev)
  ready q name hq := .inl (hready q name hq)
  events := hevents

theorem of_eq (hf : k'.filter = k.filter) (hu : k'.uevent = k.uevent) (hw : k'.watches = k.watches)
    (hn : k'.nextWd = k.nextWd) (ho : k'.orphans = k.orphans) (hp : k'.pipe = k.pipe)
    (hi : k'.inotify = k.inotify) : k.Evolves k' :=
  of_trees hw hn ho hp hi (fun _ _ h => hf ▸ h) (fun _ _ h => hf ▸ h) (fun _ _ h => hu ▸ h)

theorem notify (hkind : kind ≠ .deleteSelf) : k.Evolves (k.notify ino kind name) := by
  have hmem {ev : InotifyEvent} := @mem_notify k ino kind name ev
  obtain ⟨evs, heq⟩ := notify_eq k ino kind name
  rw [heq] at hmem ⊢
  refine ⟨fun _ _ h => h, rfl, rfl, rfl, rfl, fun ev hev => hmem.2 (.inl hev), fun ev hev => ?_,
    fun _ _ h => .inl h, fun _ _ h => h⟩
  rcases hmem.1 hev with hev | ⟨w, -, -, rfl⟩
  · exact .inl hev
  · exact .inr hkind

/-- A rename of a file into a queue directory: if the directory is watched, `IN_MOVED_TO` is queued
for the watch. -/
theorem put {q : String} {d : Dir} (hd : k.filter.lookup q = some d) (i : Nat) (ent : Dirent) :
    k.Evolves ({ k with filter := k.filter.modify q (·.put i ent) }.notify d.ino .movedTo
      ent.dName) := by
  let k₁ : Kernel := { k with filter := k.filter.modify q (·.put i ent) }
  have hmem {ev : InotifyEvent} := @mem_notify k₁ d.ino .movedTo ent.dName ev
  have hnot : k₁.Evolves (k₁.notify d.ino .movedTo ent.dName) := notify nofun
  have hkinds := hnot.kinds
  obtain ⟨evs, heq⟩ := notify_eq k₁ d.ino .movedTo ent.dName
  rw [heq] at hmem hkinds ⊢
  refine ⟨fun q' ino hq => ?_, rfl, rfl, rfl, rfl, fun ev hev => hmem.2 (.inl hev), hkinds,
    fun q' name hq => ?_, fun _ _ h => h⟩
  · rw [← hq]
    exact QueueTree.inoOf_modify fun _ => rfl
  · rcases QueueTree.Holds.of_put hq with hq | ⟨rfl, -, -⟩
    · exact .inl hq
    · refine .inr fun hn wd ⟨ino, hino, hw⟩ => ?_
      have hdino : d.ino = ino := by simpa [QueueTree.inoOf, hd] using hino
      have hfind : k.watches.find? (·.ino == d.ino) = some ⟨wd, ino, evQueueMask⟩ := by
        rw [hdino]
        exact find_watch hn hw
      have hmask : EvKind.movedTo ∈ evQueueMask := by decide
      exact ⟨⟨wd, .movedTo, ent.dName⟩, hmem.2 (.inr ⟨_, hfind, hmask, rfl⟩), rfl⟩

theorem makeQueue {i ino : Nat} {q : String} (h : k.filter.lookup q = none) :
    k.Evolves (k.makeQueue i q ino) := by
  have hmk : k.Evolves { k with filter := k.filter.mkdir i q ino } :=
    of_trees rfl rfl rfl rfl rfl (fun _ _ hq => QueueTree.inoOf_mkdir h hq)
      (fun _ _ hq => QueueTree.Holds.of_mkdir h hq) fun _ _ hq => hq
  exact hmk.trans (notify nofun)

theorem renameTimer {queue name : String} (h : renameTimer k queue name = some k') :
    k.Evolves k' := by
  simp only [MakeInitrd.Ueventd.renameTimer, Option.bind_eq_bind, Option.bind_eq_some_iff] at h
  obtain ⟨ev, -, src, -, ent, -, dst, hdst, h⟩ := h
  split at h
  · cases h
  · cases h
    let k₁ : Kernel := { k with timer := k.timer.modify queue (·.remove name) }
    have hrm : k.Evolves k₁ := of_eq rfl rfl rfl rfl rfl rfl rfl
    have hdst₁ : k₁.filter.lookup queue = some dst := hdst
    exact hrm.trans (put hdst₁ 0 { ent with dName := ev })

end Evolves

end Kernel

/-- The action removes no directory that is or may be watched. -/
def EnvAct.keepsDirs : EnvAct → Bool
  | .rmQueue _ | .rmTimer _ => false
  | _ => true

open Kernel in
/-- Other processes lose nothing as long as they keep the directories. -/
theorem env_evolves {k k' : Kernel} {a : EnvAct} (h : k.env a = some k') (ha : a.keepsDirs = true)
    (ho : k.orphans = []) : k.Evolves k' := by
  cases a with
  | rmQueue | rmTimer => cases ha
  | publish q i ent =>
    obtain ⟨d, hd, h⟩ := Option.bind_eq_some_iff.1 h
    split at h
    · cases h
    · cases h
      exact .put hd i ent
  | write q name =>
    obtain ⟨d, -, h⟩ := Option.bind_eq_some_iff.1 h
    split at h
    · cases h
      exact .notify nofun
    · cases h
  | unpublish q name =>
    obtain ⟨d, -, h⟩ := Option.bind_eq_some_iff.1 h
    cases h
    exact .of_trees rfl rfl rfl rfl rfl
      (fun _ _ hq => (QueueTree.inoOf_modify (f := (·.remove name)) fun _ => rfl).trans hq)
      (fun _ _ hq => hq.of_remove.1) fun _ _ hq => hq
  | mkQueue i q ino =>
    simp only [Kernel.env, Bool.and_eq_true, Option.isNone_iff_eq_none] at h
    split at h
    · next hq =>
      cases h
      exact .makeQueue hq.1.1.1
    · cases h
  | destroy ino =>
    simp [Kernel.env, ho] at h
  | publishTimer q i ent =>
    obtain ⟨d, -, h⟩ := Option.bind_eq_some_iff.1 h
    split at h
    · cases h
    · cases h
      have heq : k.Evolves { k with timer := k.timer.modify q (·.put i ent) } :=
        .of_eq rfl rfl rfl rfl rfl rfl rfl
      exact heq.trans (.notify nofun)
  | mkTimer i q ino =>
    simp only [Kernel.env] at h
    split at h
    · cases h
      have heq : k.Evolves { k with timer := k.timer.mkdir i q ino } :=
        .of_eq rfl rfl rfl rfl rfl rfl rfl
      exact heq.trans (.notify nofun)
    · cases h
  | mkPause i ent =>
    simp only [Kernel.env] at h
    split at h
    · cases h
      have heq : k.Evolves { k with pause := k.pause.put i ent } :=
        .of_eq rfl rfl rfl rfl rfl rfl rfl
      exact heq.trans (.notify nofun)
    · cases h
  | rmPause name =>
    obtain ⟨d, -, h⟩ := Option.bind_eq_some_iff.1 h
    cases h
    have heq : k.Evolves { k with pause := k.pause.remove name } :=
      .of_eq rfl rfl rfl rfl rfl rfl rfl
    exact heq.trans (.notify nofun)
  | unpublishTimer q name =>
    obtain ⟨d, -, h⟩ := Option.bind_eq_some_iff.1 h
    cases h
    exact .of_eq rfl rfl rfl rfl rfl rfl rfl
  | unlinkEvent q name =>
    obtain ⟨d, -, h⟩ := Option.bind_eq_some_iff.1 h
    cases h
    exact .of_trees rfl rfl rfl rfl rfl (fun _ _ hq => hq) (fun _ _ hq => hq) fun _ _ hq =>
      hq.of_remove.1
  | mkEvents i q =>
    simp only [Kernel.env] at h
    split at h
    · next hq =>
      cases h
      exact .of_trees rfl rfl rfl rfl rfl (fun _ _ hq => hq) (fun _ _ hq => hq)
        fun _ _ hq' => hq'.of_mkdir (Option.isNone_iff_eq_none.1 hq)
    · cases h
  | rmEvents q =>
    obtain ⟨d, -, h⟩ := Option.bind_eq_some_iff.1 h
    cases h
    exact .of_trees rfl rfl rfl rfl rfl (fun _ _ hq => hq) (fun _ _ hq => hq) fun _ _ hq =>
      hq.of_rmdir
  | tick | terminate =>
    cases h
    exact .of_eq rfl rfl rfl rfl rfl rfl rfl

theorem moveFile_spec {k k' : Kernel} {q : String} {ino : Nat} {name : String}
    (h : moveFile k q ino name = some k') : ∃ ent, k.filter.Has q ent ∧ k' = { k with
      filter := k.filter.modify q (·.remove name), uevent := k.uevent.modify q (·.put 0 ent) } := by
  simp only [moveFile, Option.bind_eq_bind, Option.bind_eq_some_iff] at h
  obtain ⟨src, hsrc, dst, -, ent, hent, h⟩ := h
  split at h
  · cases h
  · cases h
    exact ⟨ent, ⟨src, hsrc, mem_of_find?_eq_some hent⟩, rfl⟩

end MakeInitrd.Ueventd
