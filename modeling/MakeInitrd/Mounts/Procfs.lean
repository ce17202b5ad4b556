import MakeInitrd.Mounts.Entries

/-!
# The procfs backend

A dispatch marks every entry as old, reads the table of mounts, detaches the entries that are still
old and attaches the lines that no entry stands for. An entry is looked up by its value, so two
lines of one value find the same entry. The events are the difference of two tables exactly as long
as no line that an entry stands for is there twice (`procfs_tracks_iff`).
-/

namespace MakeInitrd.Mounts

open CMem List

/-! ## The backend -/

/-- `struct mntent`: a line of `/proc/self/mounts` -/
structure Mntent where
  fsname : Bytes
  dir : Bytes
  type : Bytes
  opts : Bytes
deriving DecidableEq, Repr

/-- `procfs_reset_state` -/
def procfsResetState (mounts : List Mount) :
    List Mount := mounts.map fun m => { m with flag := .old }

/-- One round of the loop of `procfs_read_mounts`, on `mounts` and `new_entries` -/
def procfsReadMount (st : List Mount × List Mount) (mnt : Mntent) : List Mount × List Mount :=
  match mountFind st.1 0 (some mnt.dir) (some mnt.fsname) (some mnt.type) with
  | some i => (st.1.modify i fun m => { m with flag := .cur }, st.2)
  | none => (st.1, st.2 ++ [{ mountNew 0 mnt.fsname mnt.dir mnt.type mnt.opts with flag := .new }])

/-- `procfs_read_mounts` -/
def procfsReadMounts (mounts : List Mount) (table : List Mntent) : List Mount × List Mount :=
  table.foldl procfsReadMount (mounts, [])

/-- The first loop of `procfs_diff_mounts`, from a position on. The loop knows the next entry before
it looks at one. -/
def detachOld : Nat → List Mount → State → State
  | _, [], s => s
  | i, pos :: rest, s =>
    if pos.flag = .old then detachOld i rest (mountDetach s i) else detachOld (i + 1) rest s

/-- `procfs_diff_mounts` -/
def procfsDiffMounts (mounts newEntries : List Mount) : State :=
  newEntries.foldl mountAttach (detachOld 0 mounts ⟨mounts, []⟩)

/-- `procfs_init_backend` -/
def procfsInitBackend (mounts : List Mount) (table : List Mntent) : List Mount :=
  let st := procfsReadMounts mounts table
  st.1 ++ st.2.map fun m => { m with flag := .cur }

/-- `procfs_dispatch`, with the events of this dispatch -/
def procfsDispatch (mounts : List Mount) (table : List Mntent) : State :=
  let st := procfsReadMounts (procfsResetState mounts) table
  procfsDiffMounts st.1 st.2

/-! ## What it is for -/

/-- What a mount is compared by -/
structure Key where
  source : Bytes
  target : Bytes
  fstype : Bytes
deriving DecidableEq

def Mount.key (m : Mount) : Key := ⟨m.name, m.path, m.fstype⟩

def Mntent.key (mnt : Mntent) : Key := ⟨mnt.fsname, mnt.dir, mnt.type⟩

def tableKeys (table : List Mntent) : Multiset Key := table.map Mntent.key

/-- The mounts that an action has been reported for -/
def reported (action : Action) (events : List (Action × Mount)) : Multiset Key :=
  (events.filter (·.1 = action)).map (·.2.key)

/-- A dispatch between two tables has made the list the new table and has reported the difference.
-/
def Tracks (prev table : List Mntent) (s : State) : Prop :=
  (s.mounts.map Mount.key : Multiset Key) = tableKeys table ∧
    reported .mount s.events = tableKeys table - tableKeys prev ∧
    reported .umount s.events = tableKeys prev - tableKeys table

instance (prev table : List Mntent) (s : State) : Decidable (Tracks prev table s) := by
  unfold Tracks
  infer_instance

/-- Every dispatch of a run does, where `prev` is the table read before the first one. -/
def TracksAll : List Mount → List Mntent → List (List Mntent) → Prop
  | _, _, [] => True
  | mounts, prev, table :: tables =>
    Tracks prev table (procfsDispatch mounts table) ∧
      TracksAll (procfsDispatch mounts table).mounts table tables

instance : (mounts : List Mount) → (prev : List Mntent) → (tables : List (List Mntent)) →
    Decidable (TracksAll mounts prev tables)
  | _, _, [] => .isTrue trivial
  | mounts, _, table :: tables =>
    have := instDecidableTracksAll (procfsDispatch mounts table).mounts table tables
    inferInstanceAs (Decidable (_ ∧ _))

/-- No line of the table before is in the new one more than once. -/
def NoRepeat (prev table : List Mntent) : Prop :=
  ∀ k ∈ prev.map Mntent.key, (table.map Mntent.key).count k ≤ 1

/-! ## The marks

`mark T` marks the first entry of every key of `T`: what reading lines with these keys does to the
list.
-/

def mark : Finset Key → List Mount → List Mount
  | _, [] => []
  | T, m :: ms => (if m.key ∈ T then { m with flag := .cur } else m) :: mark (T.erase m.key) ms

theorem mark_empty (ms : List Mount) : mark ∅ ms = ms := by
  induction ms with
  | nil => rfl
  | cons m ms ih => simp [mark, ih]

@[simp] theorem key_ite (m : Mount) (p : Prop) [Decidable p] :
    (if p then { m with flag := .cur } else m : Mount).key = m.key := by
  split_ifs <;> rfl

@[simp] theorem map_key_mark (T : Finset Key) (ms : List Mount) :
    (mark T ms).map Mount.key = ms.map Mount.key := by
  induction ms generalizing T with
  | nil => rfl
  | cons m ms ih => simp [mark, ih]

theorem mountFind_eq (ms : List Mount) (mnt : Mntent) :
    mountFind ms 0 (some mnt.dir) (some mnt.fsname) (some mnt.type) =
      (ms.map Mount.key).findIdx? (· = mnt.key) := by
  rw [mountFind, findIdx?_map]
  congr 1
  funext m
  simp only [isMatch, ne_eq, not_true_eq_false, false_and, if_false, Function.comp_apply,
    Mount.key, Mntent.key, Key.mk.injEq]
  exact decide_eq_decide.2 (by grind)

theorem modify_mark {ms : List Mount} {k : Key} {i : Nat} (T : Finset Key)
    (h : (ms.map Mount.key).findIdx? (· = k) = some i) :
    (mark T ms).modify i (fun m => { m with flag := .cur }) = mark (insert k T) ms := by
  induction ms generalizing T i with
  | nil => simp at h
  | cons m ms ih =>
    rw [map_cons, findIdx?_cons] at h
    split_ifs at h with hk
    · -- the first entry of the key: the rest does not see the key
      cases h
      obtain rfl : m.key = k := by simpa using hk
      simp only [mark, modify_zero_cons, Finset.mem_insert_self, if_true,
        Finset.erase_insert_eq_erase]
      split_ifs <;> rfl
    · obtain ⟨j, hj, rfl⟩ := Option.map_eq_some_iff.1 h
      have hne : m.key ≠ k := by simpa using hk
      simp only [mark, modify_succ_cons, ih (T.erase m.key) hj, Finset.mem_insert, hne, false_or,
        Finset.erase_insert_of_ne hne.symm]

/-- The entries made for the lines that no entry stands for -/
def newEntries (ms : List Mount) (table : List Mntent) : List Mount :=
  (table.filter fun mnt => mnt.key ∉ ms.map Mount.key).map fun mnt =>
    { mountNew 0 mnt.fsname mnt.dir mnt.type mnt.opts with flag := .new }

theorem procfsReadMounts_foldl (ms : List Mount) (T : Finset Key) (new : List Mount)
    (table : List Mntent) (hT : ∀ k ∈ T, k ∈ ms.map Mount.key) :
    ∃ T' : Finset Key, (∀ k, k ∈ T' ↔ k ∈ T ∨ k ∈ table.map Mntent.key ∧ k ∈ ms.map Mount.key) ∧
      table.foldl procfsReadMount (mark T ms, new) = (mark T' ms, new ++ newEntries ms table) := by
  induction table generalizing T new with
  | nil => exact ⟨T, by simp, by simp [newEntries]⟩
  | cons mnt table ih =>
    rw [foldl_cons, procfsReadMount, mountFind_eq, map_key_mark]
    cases hfind : (ms.map Mount.key).findIdx? (· = mnt.key) with
    | some i =>
      have hmem : mnt.key ∈ ms.map Mount.key := by
        by_contra hnot
        rw [findIdx?_eq_none_iff.2] at hfind
        · simp at hfind
        · intro k hk
          exact decide_eq_false fun h => hnot (h ▸ hk)
      obtain ⟨T', hT', heq⟩ := ih (insert mnt.key T) new (by grind)
      refine ⟨T', fun k => ?_, ?_⟩
      · rw [hT']
        grind
      · simp only [modify_mark T hfind, heq, newEntries, filter_cons, hmem,
          not_true_eq_false, decide_false, Bool.false_eq_true, if_false]
    | none =>
      have hnot : mnt.key ∉ ms.map Mount.key := by
        intro hmem
        simpa using findIdx?_eq_none_iff.1 hfind _ hmem
      obtain ⟨T', hT', heq⟩ := ih T
        (new ++ [{ mountNew 0 mnt.fsname mnt.dir mnt.type mnt.opts with flag := .new }]) hT
      refine ⟨T', fun k => ?_, ?_⟩
      · rw [hT']
        grind
      · simp only [heq, newEntries, filter_cons, hnot, not_false_eq_true, decide_true,
          if_true, map_cons, append_assoc, singleton_append]

/-! ## One dispatch -/

theorem detachOld_eq (kept rest : List Mount) (events : List (Action × Mount)) :
    detachOld kept.length rest ⟨kept ++ rest, events⟩ =
      ⟨kept ++ rest.filter (·.flag ≠ .old),
        events ++ (rest.filter (·.flag = .old)).map (.umount, ·)⟩ := by
  induction rest generalizing kept events with
  | nil => simp [detachOld]
  | cons pos rest ih =>
    rw [detachOld]
    split_ifs with hold
    · rw [mountDetach_append, ih]
      simp [hold]
    · have := ih (kept ++ [pos]) events
      rw [length_append, length_singleton, append_assoc, singleton_append] at this
      rw [this]
      simp [hold]

theorem foldl_mountAttach (s : State) (new : List Mount) :
    new.foldl mountAttach s = ⟨s.mounts ++ new, s.events ++ new.map (.mount, ·)⟩ := by
  induction new generalizing s with
  | nil => simp
  | cons m new ih => simp [ih, mountAttach]

theorem procfsDispatch_eq (mounts : List Mount) (table : List Mntent) :
    ∃ T : Finset Key, (∀ k, k ∈ T ↔ k ∈ table.map Mntent.key ∧ k ∈ mounts.map Mount.key) ∧
      procfsDispatch mounts table =
        ⟨(mark T (procfsResetState mounts)).filter (·.flag ≠ .old) ++ newEntries mounts table,
          ((mark T (procfsResetState mounts)).filter (·.flag = .old)).map (.umount, ·) ++
            (newEntries mounts table).map (.mount, ·)⟩ := by
  have hkeys : (procfsResetState mounts).map Mount.key = mounts.map Mount.key := by
    simp [procfsResetState, Mount.key]
  obtain ⟨T, hT, heq⟩ := procfsReadMounts_foldl (procfsResetState mounts) ∅ [] table (by simp)
  rw [mark_empty] at heq
  refine ⟨T, fun k => by simpa [hkeys] using hT k, ?_⟩
  have hnew : newEntries (procfsResetState mounts) table = newEntries mounts table := by
    simp [newEntries, hkeys]
  have := detachOld_eq [] (mark T (procfsResetState mounts)) []
  simp only [length_nil, nil_append] at this
  simp only [procfsDispatch, procfsReadMounts, heq, procfsDiffMounts, this, foldl_mountAttach,
    hnew, nil_append]

theorem count_kept {ms : List Mount} (hold : ∀ m ∈ ms, m.flag = .old) (T : Finset Key) (k : Key) :
    (((mark T ms).filter (·.flag ≠ .old)).map Mount.key).count k =
      if k ∈ T ∧ k ∈ ms.map Mount.key then 1 else 0 := by
  induction ms generalizing T with
  | nil => simp [mark]
  | cons m ms ih =>
    have hm := hold m (by simp)
    have ih := ih (fun m hm => hold m (mem_cons_of_mem _ hm)) (T.erase m.key)
    have hkept : (mark T (m :: ms)).filter (·.flag ≠ .old) =
        if m.key ∈ T then { m with flag := .cur } ::
          (mark (T.erase m.key) ms).filter (·.flag ≠ .old)
        else (mark (T.erase m.key) ms).filter (·.flag ≠ .old) := by
      rw [mark, filter_cons]
      split_ifs <;> simp_all
    have hkey : Mount.key { m with flag := .cur } = m.key := rfl
    by_cases hT : m.key ∈ T
    · rw [hkept, if_pos hT, map_cons, count_cons, ih, hkey]
      grind
    · rw [hkept, if_neg hT, ih]
      grind

theorem count_old_add_kept (ms : List Mount) (k : Key) :
    ((ms.filter (·.flag = .old)).map Mount.key).count k +
      ((ms.filter (·.flag ≠ .old)).map Mount.key).count k =
      (ms.map Mount.key).count k := by
  have hperm := (filter_append_perm (fun m : Mount => decide (m.flag = .old)) ms).map Mount.key
  rw [← hperm.count_eq, map_append, count_append]
  simp only [ne_eq, decide_not]

theorem count_newEntries (ms : List Mount) (table : List Mntent) (k : Key) :
    ((newEntries ms table).map Mount.key).count k =
      if k ∈ ms.map Mount.key then 0 else (table.map Mntent.key).count k := by
  have hmap :
      (newEntries ms table).map Mount.key =
        (table.map Mntent.key).filter (· ∉ ms.map Mount.key) := by
    rw [newEntries, map_map, filter_map]
    rfl
  rw [hmap]
  split_ifs with hk
  · exact count_eq_zero.2 fun h => by simpa [hk] using (mem_filter.1 h).2
  · exact count_filter (by simpa using hk)

/-- The counts of one key after a dispatch: in the list, among the mounts and among the umounts
reported -/
theorem count_procfsDispatch (mounts : List Mount) (table : List Mntent) (k : Key) :
    let old := (mounts.map Mount.key).count k
    let new := (table.map Mntent.key).count k
    let kept := if 0 < old ∧ 0 < new then 1 else 0
    ((procfsDispatch mounts table).mounts.map Mount.key).count k = kept +
      (if 0 < old then 0 else new) ∧
      (reported .mount (procfsDispatch mounts table).events).count k =
        (if 0 < old then 0 else new) ∧
      (reported .umount (procfsDispatch mounts table).events).count k = old - kept := by
  obtain ⟨T, hT, heq⟩ := procfsDispatch_eq mounts table
  have hold : ∀ m ∈ procfsResetState mounts, m.flag = .old := by
    simp [procfsResetState]
  have hkeys : (procfsResetState mounts).map Mount.key = mounts.map Mount.key := by
    simp [procfsResetState, Mount.key]
  have hkept := count_kept hold T k
  have hadd := count_old_add_kept (mark T (procfsResetState mounts)) k
  have hnew := count_newEntries mounts table k
  rw [map_key_mark] at hadd
  rw [hkeys] at hadd hkept
  simp only [hT, ← count_pos_iff] at hkept hnew
  rw [heq]
  have hmount :
      reported .mount (((mark T (procfsResetState mounts)).filter (·.flag = .old)).map
        (.umount, ·) ++
      (newEntries mounts table).map (.mount, ·)) =
        ((newEntries mounts table).map Mount.key : Multiset Key) := by
    simp [reported, filter_append, filter_map, Function.comp_def]
  have humount :
      reported .umount (((mark T (procfsResetState mounts)).filter (·.flag = .old)).map
        (.umount, ·) ++
      (newEntries mounts table).map (.mount, ·)) =
        (((mark T (procfsResetState mounts)).filter (·.flag = .old)).map
          Mount.key : Multiset Key) := by
    simp [reported, filter_append, filter_map, Function.comp_def]
  rw [hmount, humount, Multiset.coe_count, Multiset.coe_count, map_append,
    count_append, hkept, hnew]
  refine ⟨?_, rfl, ?_⟩
  · grind
  · grind

/-- A dispatch tracks the change from the table that the list holds if no line of it is repeated,
and only then. -/
theorem tracks_dispatch_iff {mounts : List Mount} {prev : List Mntent}
    (h : (mounts.map Mount.key : Multiset Key) = tableKeys prev) (table : List Mntent) :
    Tracks prev table (procfsDispatch mounts table) ↔ NoRepeat prev table := by
  have hcount : ∀ k, (mounts.map Mount.key).count k = (prev.map Mntent.key).count k := by
    intro k
    have := congrArg (Multiset.count k) h
    simpa [tableKeys] using this
  have hdispatch := fun k => count_procfsDispatch mounts table k
  simp only [hcount] at hdispatch
  simp only [Tracks, Multiset.ext, Multiset.coe_count, Multiset.count_sub, tableKeys, NoRepeat,
    ← count_pos_iff]
  constructor
  · rintro ⟨hmounts, -, -⟩ k hk
    have := hmounts k
    grind
  · intro hno
    refine ⟨fun k => ?_, fun k => ?_, fun k => ?_⟩
    all_goals
      have := hno k
      grind

theorem procfsInitBackend_keys (table : List Mntent) :
    (procfsInitBackend [] table).map Mount.key = table.map Mntent.key := by
  obtain ⟨T, -, heq⟩ := procfsReadMounts_foldl [] ∅ [] table (by simp)
  rw [mark_empty] at heq
  simp [procfsInitBackend, procfsReadMounts, heq, mark, newEntries, Mount.key, Mntent.key, mountNew,
    Function.comp_def]

theorem tracksAll_iff {mounts : List Mount} {prev : List Mntent}
    (h : (mounts.map Mount.key : Multiset Key) = tableKeys prev) (tables : List (List Mntent)) :
    TracksAll mounts prev tables ↔ (prev :: tables).IsChain NoRepeat := by
  induction tables generalizing mounts prev with
  | nil => simp [TracksAll]
  | cons table tables ih =>
    rw [TracksAll, isChain_cons_cons, ← tracks_dispatch_iff h]
    exact and_congr_right fun htracks => ih htracks.1

/-- The backend tracks the tables of a run if no line of a table is there twice in the next one, and
only then. -/
theorem procfs_tracks_iff (table : List Mntent) (tables : List (List Mntent)) :
    TracksAll (procfsInitBackend [] table) table tables ↔ (table :: tables).IsChain NoRepeat :=
  tracksAll_iff (congrArg _ (procfsInitBackend_keys table)) tables

/-- Two mounts of one source over each other, and a dispatch that finds the same table: it reports
that one of them is gone. -/
theorem not_procfs_tracks :
    ¬TracksAll (procfsInitBackend [] [⟨[97], [47], [116], []⟩, ⟨[97], [47], [116], []⟩])
      [⟨[97], [47], [116], []⟩, ⟨[97], [47], [116], []⟩]
      [[⟨[97], [47], [116], []⟩, ⟨[97], [47], [116], []⟩]] := by
  decide

end MakeInitrd.Mounts
