import MakeInitrd.Lib.Lts
import MakeInitrd.Mounts.Entries

/-!
# The fanotify backend

The kernel attaches, moves and detaches mounts of the namespace at any time, and once the mark is
placed it queues an event for each. The backend places the mark, lists the mounts, and then reads
the queue whenever there is something in it. A step of the program is one system call or what stands
between two of them.

An entry is found by its id and no id is 0, so the list never holds an id twice and the events of an
id alternate, whatever the kernel does. But an event that was already waiting when a mount was
listed or reported is taken for news (`not_faithful`). If a mount is listed and reported only when
no event of it is waiting, it is reported as gone only after the kernel has moved or detached it
(`faithful_of_settled`).
-/

namespace MakeInitrd.Mounts

open List CMem

/-! ## Steps -/

/-- What `statmount` says of a mount -/
structure Stat where
  source : Bytes
  point : Bytes
  fstype : Bytes
  opts : Bytes
deriving DecidableEq, Repr

/-- An event of the queue, with the bits `FAN_MNT_DETACH` and `FAN_MNT_ATTACH` of its mask. A move
has both. -/
structure FanEvent where
  id : UInt64
  detach : Bool
  attach : Bool
deriving DecidableEq, Repr

inductive Place where
  -- `fanotify_init_backend` and `fanotify_read_mounts`
  | mark
  | list (param : UInt64)
  | scan (ids : List UInt64) (next : Option UInt64)
  | add (m : Mount) (ids : List UInt64) (next : Option UInt64)
  | failed
  -- the loop of `main` and `fanotify_dispatch`
  | poll
  | read
  | events (es : List FanEvent)
  | stat (id : UInt64) (es : List FanEvent)
  | attach (m : Mount) (es : List FanEvent)
deriving DecidableEq, Repr

/-- What is of interest in a run: the mounts that are listed and reported, and those that the kernel
moves and detaches -/
inductive Obs where
  | listed (id : UInt64)
  | emitted (action : Action) (id : UInt64)
  | moved (id : UInt64)
  | detached (id : UInt64)
deriving DecidableEq, Repr

structure Sys where
  /-- the mounts of the namespace -/
  table : List (UInt64 × Stat)
  marked : Bool
  queue : List FanEvent
  place : Place
  prog : State
  /-- what has happened, the latest first -/
  history : List Obs
deriving DecidableEq

/-! ## The kernel -/

/-- What the kernel does to a mount -/
inductive Change where
  | attach (stat : Stat)
  | move (stat : Stat)
  | detach
deriving DecidableEq, Repr

namespace Sys

/-- The ids of the mounts of the namespace -/
def ids (s : Sys) : List UInt64 := s.table.map (·.1)

/-- The mark has the kernel queue an event. -/
def notify (s : Sys) (e : FanEvent) : Sys :=
  { s with queue := s.queue ++ if s.marked then [e] else [] }

/-- The kernel attaches, moves or detaches a mount. Ids are not 0. -/
def change (s : Sys) (id : UInt64) : Change → Option Sys
  | .attach stat =>
    if id = 0 ∨ id ∈ s.ids then none
    else some (notify { s with table := s.table ++ [(id, stat)] } ⟨id, false, true⟩)
  | .move stat =>
    if id ∈ s.ids then
      some (notify { s with table := s.table.map fun p => if p.1 = id then (id, stat) else p,
                            history := .moved id :: s.history } ⟨id, true, true⟩)
    else none
  | .detach =>
    if id ∈ s.ids then
      some (notify { s with table := s.table.filter (·.1 ≠ id),
                            history := .detached id :: s.history } ⟨id, true, false⟩)
    else none

/-- `listmount`: the first 256 ids above `param` -/
def listmount (s : Sys) (param : UInt64) : List UInt64 :=
  ((s.ids.filter (param < ·)).mergeSort (· ≤ ·)).take 256

/-- `statmount_alloc`. The call fails for a mount that is not in the namespace, and may fail for
others. -/
def statmountAlloc (s : Sys) (fails : Bool) (id : UInt64) : Option Mount :=
  if fails then none
  else (s.table.lookup id).map fun st => mountNew id st.source st.point st.fstype st.opts

/-! ## The program -/

def goto (s : Sys) (place : Place) : Sys := { s with place := place }

/-- `mount_find` and, if there is an entry, `mount_detach` -/
def detachFound (s : Sys) (id : UInt64) : Sys :=
  match mountFind s.prog.mounts id none none none with
  | some i => { s with prog := mountDetach s.prog i, history := .emitted .umount id :: s.history }
  | none => s

/-- The next step of the program, where a system call may fail; `none` if it waits for an event or
has given up. A buffer of 4096 bytes holds 102 events. -/
def next (s : Sys) (fails : Bool) : Option Sys :=
  match s.place with
  | .mark => some { s with marked := true, place := .list 0 }
  | .list param =>
    let ids := s.listmount param
    some (s.goto (if fails then .failed
      else .scan ids (if ids.length < 256 then none else ids.getLast?)))
  | .scan [] none => some (s.goto .poll)
  | .scan [] (some param) => some (s.goto (.list param))
  | .scan (id :: ids) param =>
    match mountFind s.prog.mounts id none none none with
    | some _ => some (s.goto (.scan ids param))
    | none =>
      match s.statmountAlloc fails id with
      | some m => some (s.goto (.add m ids param))
      | none => some (s.goto (.scan ids param))
  | .add m ids param =>
    some { s with place := .scan ids param, prog := { s.prog with mounts := s.prog.mounts ++ [m] },
                  history := .listed m.id :: s.history }
  | .failed => none
  | .poll => if s.queue = [] then none else some (s.goto .read)
  | .read =>
    if s.queue = [] then some (s.goto .poll)
    else some { s with place := .events (s.queue.take 102), queue := s.queue.drop 102 }
  | .events [] => some (s.goto .read)
  | .events (e :: es) =>
    let s := if e.detach then s.detachFound e.id else s
    if e.attach then some ((s.detachFound e.id).goto (.stat e.id es))
      else some (s.goto (.events es))
  | .stat id es =>
    match s.statmountAlloc fails id with
    | some m => some (s.goto (.attach m es))
    | none => some (s.goto (.events es))
  | .attach m es =>
    some { s with place := .events es, prog := mountAttach s.prog m,
                  history := .emitted .mount m.id :: s.history }

end Sys

inductive Label where
  | change (id : UInt64) (c : Change)
  | run (fails : Bool)
deriving DecidableEq, Repr

/-- The backend and the kernel, from before the mark is placed -/
def fanotify : Lts Sys Label where
  init s := (∀ id ∈ s.ids, id ≠ 0) ∧ s.marked = false ∧ s.queue = [] ∧ s.place = .mark ∧
    s.prog = ⟨[], []⟩ ∧
    s.history = []
  step s
    | .change id c => s.change id c
    | .run fails => s.next fails

/-! ## What it is for -/

/-- The mount has been moved or detached after it was reported or listed for the last time. -/
def earned (id : UInt64) : List Obs → Bool
  | [] => false
  | .moved i :: h | .detached i :: h => i = id || earned id h
  | .listed i :: h | .emitted .mount i :: h => i ≠ id && earned id h
  | .emitted .umount _ :: h => earned id h

def actions (id : UInt64) (events : List (Action × Mount)) : List Action :=
  (events.filter (·.2.id = id)).map (·.1)

/-- No two entries have one id, the events of a mount alternate, and a mount is reported as gone
only after it has been detached or moved. -/
structure Faithful (s : Sys) : Prop where
  nodup : (s.prog.mounts.map (·.id)).Nodup
  alternate : ∀ id, (actions id s.prog.events).IsChain (· ≠ ·)
  justified : ∀ id h, .emitted .umount id :: h <:+ s.history → earned id h = true

/-- The events that the program has not looked at -/
@[simp]
def Place.buffer : Place → List FanEvent
  | .events es | .stat _ es | .attach _ es => es
  | _ => []

def Sys.pending (s : Sys) : List FanEvent := s.place.buffer ++ s.queue

/-- The mount that the next step of the program lists or reports -/
@[simp]
def Place.recorded : Place → Option UInt64
  | .add m _ _ | .attach m _ => some m.id
  | _ => none

/-- A mount is listed or reported only when no event of it is waiting. -/
def settled (s : Sys) : Label → Bool
  | .change _ _ => true
  | .run _ => s.place.recorded.all fun id => s.pending.all (·.id ≠ id)

/-! ## Events -/

variable {id : UInt64} {m : Mount}

theorem isMatch_id (hid : id ≠ 0) (hm : m.id ≠ 0) :
    isMatch id none none none m = decide (m.id = id) := by
  simp [isMatch, hid, hm]

theorem mountFind_eq_none {ms : List Mount} (hid : id ≠ 0) (hms : ∀ m ∈ ms, m.id ≠ 0) :
    mountFind ms id none none none = none ↔ id ∉ ms.map (·.id) := by
  rw [mountFind, findIdx?_eq_none_iff]
  constructor
  · intro h hmem
    obtain ⟨m, hm, rfl⟩ := mem_map.1 hmem
    have := h m hm
    simp [isMatch_id hid (hms m hm)] at this
  · intro h m hm
    rw [isMatch_id hid (hms m hm)]
    exact decide_eq_false fun heq => h (mem_map.2 ⟨m, hm, heq⟩)

/-- The entry that is found is the only one of its id, so detaching it leaves no entry of the id. -/
theorem mountDetach_of_find {s : State} (hid : id ≠ 0) (hms : ∀ m ∈ s.mounts, m.id ≠ 0)
    (hnodup : (s.mounts.map (·.id)).Nodup) {i : Nat}
    (h : mountFind s.mounts id none none none = some i) :
    ∃ m, m.id = id ∧ id ∈ s.mounts.map (·.id) ∧
      mountDetach s i = ⟨s.mounts.filter (·.id ≠ id), s.events ++ [(.umount, m)]⟩ := by
  obtain ⟨hi, hmatch, -⟩ := findIdx?_eq_some_iff_getElem.1 h
  have hmem := getElem_mem hi
  have heq : s.mounts[i].id = id := by simpa [isMatch_id hid (hms _ hmem)] using hmatch
  refine ⟨s.mounts[i], heq, mem_map.2 ⟨_, hmem, heq⟩, ?_⟩
  have herase : s.mounts.eraseIdx i = s.mounts.filter (·.id ≠ id) := by
    have hsplit : s.mounts = s.mounts.take i ++ s.mounts[i] :: s.mounts.drop (i + 1) := by simp
    have hne : ∀ m ∈ s.mounts.take i ++ s.mounts.drop (i + 1), m.id ≠ id := by
      rw [hsplit, map_append, map_cons, nodup_middle, nodup_cons, ← map_append, heq] at hnodup
      exact fun m hm hid => hnodup.1 (mem_map.2 ⟨m, hm, hid⟩)
    rw [eraseIdx_eq_take_drop_succ]
    conv_rhs => rw [hsplit]
    rw [filter_append, filter_cons_of_neg (by simp [heq]), ← filter_append]
    exact (filter_eq_self.2 fun m hm => decide_eq_true (hne m hm)).symm
  simp [mountDetach, getElem?_eq_getElem hi, herase]

/-! ## What a step can do -/

/-- What a change of the kernel does to a mount -/
structure Changed (s : Sys) (id : UInt64) (s' : Sys) : Prop where
  place : s'.place = s.place
  prog : s'.prog = s.prog
  marked : s'.marked = s.marked
  queue : ∃ e : FanEvent, e.id = id ∧ s'.queue = s.queue ++ if s.marked then [e] else []
  ids : ∀ i ≠ id, i ∈ s'.ids ↔ i ∈ s.ids
  effect : (id ≠ 0 ∧ id ∉ s.ids ∧ id ∈ s'.ids ∧ s'.history = s.history) ∨
    (id ∈ s.ids ∧ (s'.history = .moved id :: s.history ∨ s'.history = .detached id :: s.history))

theorem changed_of_change {s s' : Sys} {c : Change} (h : s.change id c = some s') :
    Changed s id s' := by
  cases c with
  | attach st =>
    rw [Sys.change] at h
    split_ifs at h with hid
    cases h
    rw [not_or] at hid
    refine ⟨rfl, rfl, rfl, ⟨_, rfl, rfl⟩, fun i hi => ?_, .inl ⟨hid.1, hid.2, ?_, rfl⟩⟩
    · simp [Sys.ids, Sys.notify, hi]
    · simp [Sys.ids, Sys.notify]
  | move st =>
    rw [Sys.change] at h
    split_ifs at h with hid
    cases h
    refine ⟨rfl, rfl, rfl, ⟨_, rfl, rfl⟩, fun i hi => ?_, .inr ⟨hid, .inl rfl⟩⟩
    simp only [Sys.notify, map_map, Sys.ids, mem_map, Function.comp_apply]
    constructor
    all_goals
      rintro ⟨p, hp, rfl⟩
      exact ⟨p, hp, by split_ifs <;> simp_all⟩
  | detach =>
    rw [Sys.change] at h
    split_ifs at h with hid
    cases h
    refine ⟨rfl, rfl, rfl, ⟨_, rfl, rfl⟩, fun i hi => ?_, .inr ⟨hid, .inr rfl⟩⟩
    simp only [Sys.notify, Sys.ids, mem_map, mem_filter, decide_eq_true_eq]
    constructor
    · rintro ⟨p, hp, rfl⟩
      exact ⟨p, hp.1, rfl⟩
    · rintro ⟨p, hp, rfl⟩
      exact ⟨p, ⟨hp, hi⟩, rfl⟩

/-- The ids that the program has in its hands -/
@[simp]
def Place.ids : Place → List UInt64
  | .scan ids _ => ids
  | .add m ids _ => m.id :: ids
  | .events es => es.map (·.id)
  | .stat id es => id :: es.map (·.id)
  | .attach m es => m.id :: es.map (·.id)
  | _ => []

/-- The mount that the program has not found in the list -/
@[simp]
def Place.absent : Place → Option UInt64
  | .add m _ _ | .attach m _ => some m.id
  | .stat id _ => some id
  | _ => none

@[simp]
def Place.listing : Place → Bool
  | .mark | .list _ | .scan _ _ | .add _ _ _ => true
  | _ => false

variable {place : Place}

theorem absent_of_recorded {i : UInt64} (h : place.recorded = some i) : place.absent = some i := by
  cases place <;> simp_all

/-- What holds in every state, whatever the kernel does -/
structure Wf (s : Sys) : Prop where
  tableId : ∀ i ∈ s.ids, i ≠ 0
  queueId : ∀ e ∈ s.queue, e.id ≠ 0
  placeId : ∀ i ∈ s.place.ids, i ≠ 0
  mountId : ∀ m ∈ s.prog.mounts, m.id ≠ 0
  nodup : (s.prog.mounts.map (·.id)).Nodup
  absent : ∀ i ∈ s.place.absent, i ∉ s.prog.mounts.map (·.id)
  marked : s.place ≠ .mark → s.marked = true
  silent : s.place.listing = true → s.prog.events = []

/-- What a step of the program does to the list and to what has been reported -/
inductive Effect (s : Sys) : State → List Obs → Prop where
  | same : Effect s s.prog s.history
  | listed {m : Mount} : s.place.recorded = some m.id → s.prog.events = [] →
      Effect s { s.prog with mounts := s.prog.mounts ++ [m] } (.listed m.id :: s.history)
  | mount {m : Mount} : s.place.recorded = some m.id →
      Effect s (mountAttach s.prog m) (.emitted .mount m.id :: s.history)
  | umount {m : Mount} {e : FanEvent} : e ∈ s.pending → m.id = e.id →
    e.id ∈ s.prog.mounts.map (·.id) →
      Effect s ⟨s.prog.mounts.filter (·.id ≠ e.id), s.prog.events ++ [(.umount, m)]⟩
        (.emitted .umount e.id :: s.history)

/-- What a step of the program does -/
structure Ran (s s' : Sys) : Prop where
  ids : s'.ids = s.ids
  pending : s'.pending ⊆ s.pending
  recorded : ∀ i ∈ s'.place.recorded, i ∈ s.ids
  effect : Effect s s'.prog s'.history
  wf : Wf s'

section
variable {s s' : Sys}

theorem Wf.ran_goto (h : Wf s) (hmark : s.place ≠ .mark) (place : Place)
    (hids : ∀ i ∈ place.ids, i ≠ 0) (habsent : ∀ i ∈ place.absent, i ∉ s.prog.mounts.map (·.id))
    (hsilent : place.listing = true → s.place.listing = true)
    (hpending : place.buffer ⊆ s.place.buffer)
    (hrecorded : ∀ i ∈ place.recorded, i ∈ s.ids) : Ran s (s.goto place) where
  ids := rfl
  pending :=
    append_subset.2 ⟨fun _ he => mem_append_left _ (hpending he), fun _ he => mem_append_right _ he⟩
  recorded := hrecorded
  effect := .same
  wf := ⟨h.tableId, h.queueId, hids, h.mountId, h.nodup, habsent, fun _ => h.marked hmark,
    fun hl => h.silent (hsilent hl)⟩

theorem Wf.detachFound (h : Wf s) (hid : id ≠ 0) :
    (id ∉ s.prog.mounts.map (·.id) ∧ s.detachFound id = s) ∨
      ∃ m, m.id = id ∧ id ∈ s.prog.mounts.map (·.id) ∧ s.detachFound id = { s with
          prog := ⟨s.prog.mounts.filter (·.id ≠ id), s.prog.events ++ [(.umount, m)]⟩
          history := .emitted .umount id :: s.history } := by
  cases hfind : mountFind s.prog.mounts id none none none with
  | none => exact .inl ⟨(mountFind_eq_none hid h.mountId).1 hfind, by simp [Sys.detachFound, hfind]⟩
  | some i =>
    obtain ⟨m, hm, hmem, heq⟩ := mountDetach_of_find hid h.mountId h.nodup hfind
    exact .inr ⟨m, hm, hmem, by simp [Sys.detachFound, hfind, heq]⟩

theorem Wf.not_mem_detachFound (h : Wf s) (hid : id ≠ 0) :
    id ∉ (s.detachFound id).prog.mounts.map (·.id) := by
  rcases h.detachFound hid with ⟨hnot, heq⟩ | ⟨m, -, -, heq⟩
  · rwa [heq]
  · simp [heq]

theorem Wf.detachFound_twice (h : Wf s) (hid : id ≠ 0) :
    (s.detachFound id).detachFound id = s.detachFound id := by
  have hnot := h.not_mem_detachFound hid
  have hids : ∀ m ∈ (s.detachFound id).prog.mounts, m.id ≠ 0 := by
    rcases h.detachFound hid with ⟨-, heq⟩ | ⟨m, -, -, heq⟩
    · rw [heq]
      exact h.mountId
    · rw [heq]
      exact fun m hm => h.mountId m (mem_of_mem_filter hm)
  rw [Sys.detachFound.eq_def (s.detachFound id), (mountFind_eq_none hid hids).2 hnot]

theorem Wf.ran_event (h : Wf s) {e : FanEvent} {es : List FanEvent}
    (hplace : s.place = .events (e :: es)) (hids : place.ids ⊆ (e :: es).map (·.id))
    (habsent : ∀ i ∈ place.absent, i = e.id)
    (hlisting : place.listing = false) (hbuffer : place.buffer = es)
    (hrecorded : place.recorded = none) :
    Ran s ((s.detachFound e.id).goto place) := by
  have hplaceId : ∀ i ∈ place.ids, i ≠ 0 := fun i hi => h.placeId i (by rw [hplace]; exact hids hi)
  have hrec : ∀ i ∈ place.recorded, i ∈ s.ids := hrecorded ▸ nofun
  have hsilent {p : Prop} : place.listing = true → p := hlisting ▸ nofun
  have hid : e.id ≠ 0 := h.placeId e.id (by simp [hplace])
  have hmarked : s.marked = true := h.marked (by simp [hplace])
  have hnot := h.not_mem_detachFound hid
  have hmem : e ∈ s.pending := by simp [Sys.pending, hplace]
  have hpending : place.buffer ++ s.queue ⊆ s.pending := by
    rw [hbuffer, Sys.pending, hplace]
    exact subset_cons_self e _
  rcases h.detachFound hid with ⟨-, heq⟩ | ⟨m, hm, hin, heq⟩
  · rw [heq] at hnot ⊢
    exact ⟨rfl, hpending, hrec, .same, h.tableId, h.queueId, hplaceId, h.mountId, h.nodup,
      fun i hi => habsent i hi ▸ hnot, fun _ => hmarked, hsilent⟩
  · rw [heq] at hnot ⊢
    exact ⟨rfl, hpending, hrec, .umount hmem hm hin, h.tableId, h.queueId, hplaceId,
      fun m hm => h.mountId m (mem_of_mem_filter hm), h.nodup.sublist (filter_sublist.map _),
      fun i hi => habsent i hi ▸ hnot, fun _ => hmarked, hsilent⟩

theorem statmountAlloc_eq_some {fails : Bool} (h : s.statmountAlloc fails id = some m) :
    m.id = id ∧ id ∈ s.ids := by
  rw [Sys.statmountAlloc] at h
  split_ifs at h
  obtain ⟨st, hlookup, rfl⟩ := Option.map_eq_some_iff.1 h
  obtain ⟨l₁, l₂, htable, -⟩ := lookup_eq_some_iff.1 hlookup
  exact ⟨rfl, by simp [Sys.ids, htable]⟩

theorem listmount_subset (param : UInt64) : s.listmount param ⊆ s.ids := by
  intro i hi
  have := mem_of_mem_take hi
  rw [mem_mergeSort] at this
  exact mem_of_mem_filter this

theorem Wf.nodup_append (h : Wf s) (habsent : m.id ∉ s.prog.mounts.map (·.id)) :
    ((s.prog.mounts ++ [m]).map (·.id)).Nodup := by
  rw [List.map_append, List.nodup_append]
  refine ⟨h.nodup, nodup_singleton _, fun i hi j hj => ?_⟩
  rintro rfl
  rw [map_singleton, mem_singleton] at hj
  exact habsent (hj ▸ hi)

theorem Wf.ran_add (h : Wf s) {events : List (Action × Mount)} {history : List Obs}
    (hrec : s.place.recorded = some m.id) (hids : m.id :: place.ids = s.place.ids)
    (habsent : place.absent = none)
    (hnone : place.recorded = none) (hbuffer : place.buffer = s.place.buffer)
    (hsilent : place.listing = true → events = [])
    (heffect : Effect s ⟨s.prog.mounts ++ [m], events⟩ history) :
    Ran s { s with place, prog := ⟨s.prog.mounts ++ [m], events⟩, history } := by
  have hplaceId : ∀ i ∈ m.id :: place.ids, i ≠ 0 := hids ▸ h.placeId
  refine ⟨rfl, ?_, by simp only [hnone]; exact nofun, heffect, h.tableId, h.queueId,
    fun i hi => hplaceId i (mem_cons_of_mem _ hi),
    forall_mem_append.2 ⟨h.mountId, by simpa using hplaceId m.id mem_cons_self⟩,
    h.nodup_append (h.absent _ (absent_of_recorded hrec)), by simp only [habsent]; exact nofun,
    fun _ => h.marked fun hmark => by simp [hmark] at hrec, hsilent⟩
  rw [Sys.pending, Sys.pending, hbuffer]
  exact List.Subset.refl _

/-- What a step of the backend can do -/
theorem Wf.ran (h : Wf s) {fails : Bool} (hnext : s.next fails = some s') : Ran s s' := by
  cases hplace : s.place with
  | mark =>
    simp only [Sys.next, hplace, Option.some.injEq] at hnext
    subst hnext
    exact ⟨rfl, by simp [Sys.pending], by simp, .same, h.tableId, h.queueId,
      by simp, h.mountId, h.nodup, by simp, fun _ => rfl,
      fun _ => h.silent (by rw [hplace]; rfl)⟩
  | list param =>
    simp only [Sys.next, hplace, Option.some.injEq] at hnext
    subst hnext
    refine h.ran_goto (by simp [hplace]) _ ?_ ?_ (by simp [hplace]) ?_ ?_
    all_goals split_ifs
    all_goals first
    | exact fun i hi => h.tableId i (listmount_subset param hi)
    | simp
  | scan ids next =>
    cases ids with
    | nil =>
      cases next <;> simp only [Sys.next, hplace, Option.some.injEq] at hnext <;> subst hnext <;>
        exact h.ran_goto (by simp [hplace]) _ (by simp) (by simp) (by simp [hplace])
          (by simp) (by simp)
    | cons id ids =>
      have hids : ∀ i ∈ id :: ids, i ≠ 0 := fun i hi => h.placeId i (by rw [hplace]; exact hi)
      have hskip : Ran s (s.goto (.scan ids next)) :=
        h.ran_goto (by simp [hplace]) _ (fun i hi => hids i (mem_cons_of_mem _ hi)) (by simp)
          (by simp [hplace]) (by simp) (by simp)
      simp only [Sys.next, hplace] at hnext
      split at hnext
      · exact Option.some.inj hnext ▸ hskip
      · next hfind =>
        split at hnext
        · next m hm =>
          cases hnext
          obtain ⟨rfl, hmem⟩ := statmountAlloc_eq_some hm
          have hnot := (mountFind_eq_none (hids _ (by simp)) h.mountId).1 hfind
          exact h.ran_goto (by simp [hplace]) _ hids (by simpa using hnot)
            (by simp [hplace]) (by simp) (by simpa using hmem)
        · exact Option.some.inj hnext ▸ hskip
  | add m ids next =>
    simp only [Sys.next, hplace, Option.some.injEq] at hnext
    subst hnext
    have hrec : s.place.recorded = some m.id := by rw [hplace]; rfl
    have hevents := h.silent (by rw [hplace]; rfl)
    exact h.ran_add hrec (by rw [hplace]; rfl) rfl rfl (by rw [hplace]; rfl) (fun _ => hevents)
      (.listed hrec hevents)
  | failed => simp [Sys.next, hplace] at hnext
  | poll =>
    simp only [Sys.next, hplace] at hnext
    split_ifs at hnext
    cases hnext
    exact h.ran_goto (by simp [hplace]) .read (by simp) (by simp) (by simp) (by simp) (by simp)
  | read =>
    simp only [Sys.next, hplace] at hnext
    split_ifs at hnext <;> cases hnext
    · exact h.ran_goto (by simp [hplace]) .poll (by simp) (by simp) (by simp) (by simp) (by simp)
    · refine ⟨rfl, by simp [Sys.pending, hplace], by simp, .same, h.tableId,
        fun e he => h.queueId e (mem_of_mem_drop he), ?_, h.mountId, h.nodup, by simp,
        fun _ => h.marked (by simp [hplace]), by simp⟩
      intro i hi
      obtain ⟨e, he, rfl⟩ := mem_map.1 hi
      exact h.queueId e (mem_of_mem_take he)
  | events es =>
    cases es with
    | nil =>
      simp only [Sys.next, hplace, Option.some.injEq] at hnext
      subst hnext
      exact h.ran_goto (by simp [hplace]) .read (by simp) (by simp) (by simp) (by simp) (by simp)
    | cons e es =>
      have hid : e.id ≠ 0 := h.placeId e.id (by simp [hplace])
      have hstat : Ran s ((s.detachFound e.id).goto (.stat e.id es)) :=
        h.ran_event hplace (List.Subset.refl _) (by simp) rfl rfl rfl
      have hevents : Ran s ((s.detachFound e.id).goto (.events es)) :=
        h.ran_event hplace (subset_cons_self _ _) (by simp) rfl rfl rfl
      simp only [Sys.next, hplace] at hnext
      split_ifs at hnext with hattach hdetach hdetach <;> cases hnext
      · exact (h.detachFound_twice hid).symm ▸ hstat
      · exact hstat
      · exact hevents
      · exact h.ran_goto (by simp [hplace]) _
          (fun i hi => h.placeId i (by rw [hplace]; exact mem_cons_of_mem _ hi)) (by simp)
          (by simp) (by rw [hplace]; exact subset_cons_self _ _) (by simp)
  | stat id es =>
    have hids : ∀ i ∈ id :: es.map (·.id), i ≠ 0 :=
      fun i hi => h.placeId i (by rw [hplace]; exact hi)
    have habsent := h.absent id (by simp [hplace])
    simp only [Sys.next, hplace] at hnext
    split at hnext <;> cases hnext
    · next m hm =>
      obtain ⟨rfl, hmem⟩ := statmountAlloc_eq_some hm
      exact h.ran_goto (by simp [hplace]) _ hids (by simpa using habsent) (by simp)
        (by simp [hplace]) (by simpa using hmem)
    · exact h.ran_goto (by simp [hplace]) _ (fun i hi => hids i (mem_cons_of_mem _ hi)) (by simp)
        (by simp) (by simp [hplace]) (by simp)
  | attach m es =>
    simp only [Sys.next, hplace, Option.some.injEq] at hnext
    subst hnext
    have hrec : s.place.recorded = some m.id := by rw [hplace]; rfl
    exact h.ran_add hrec (by rw [hplace]; rfl) rfl rfl (by rw [hplace]; rfl) (by simp) (.mount hrec)

/-- The kernel may change mounts at any time. -/
theorem Wf.changed (h : Wf s) (hc : Changed s id s') : Wf s' := by
  have hid : id ≠ 0 := by
    rcases hc.effect with ⟨hid, -⟩ | ⟨hmem, -⟩
    · exact hid
    · exact h.tableId id hmem
  have hplace := hc.place
  have hprog := hc.prog
  refine ⟨fun i hi => ?_, fun e he => ?_, hplace ▸ h.placeId, hprog ▸ h.mountId,
    hprog ▸ h.nodup, ?_, ?_, ?_⟩
  · by_cases hne : i = id
    · exact hne ▸ hid
    · exact h.tableId i ((hc.ids i hne).1 hi)
  · obtain ⟨e', he', hq⟩ := hc.queue
    rw [hq, mem_append] at he
    rcases he with he | he
    · exact h.queueId e he
    · split_ifs at he
      · rw [mem_singleton.1 he, he']
        exact hid
      · exact absurd he not_mem_nil
  · rw [hplace, hprog]
    exact h.absent
  · rw [hplace, hc.marked]
    exact h.marked
  · rw [hplace, hprog]
    exact h.silent

variable {ok : Sys → Label → Prop}

theorem wf_of_reachBy (h : fanotify.ReachBy ok s) : Wf s := by
  refine h.invariant ?_ ?_
  · rintro s ⟨hids, hmarked, hqueue, hplace, hprog, hhistory⟩
    exact ⟨hids, by simp [hqueue], by simp [hplace], by simp [hprog], by simp [hprog],
      by simp [hplace], by simp [hplace], by simp [hprog]⟩
  · intro s l s' _ hwf _ hstep
    cases l with
    | change id c => exact hwf.changed (changed_of_change hstep)
    | run fails => exact (hwf.ran hstep).wf

/-! ## The events of a mount alternate -/

/-- The events of every mount alternate, and the last one says whether the mount is in the list. -/
structure Alternates (p : State) : Prop where
  chain : ∀ id, (actions id p.events).IsChain (· ≠ ·)
  last : ∀ id, ∀ a ∈ (actions id p.events).getLast?, a = .mount ↔ id ∈ p.mounts.map (·.id)

theorem actions_append (id : UInt64) (events : List (Action × Mount)) (a : Action) (m : Mount) :
    actions id (events ++ [(a, m)]) = actions id events ++ if m.id = id then [a] else [] := by
  simp only [actions, filter_append, map_append, filter_cons, filter_nil, decide_eq_true_eq]
  split_ifs <;> rfl

/-- An event that is not the last one of its mount is reported, and the list changes for this mount
only. -/
theorem Alternates.report {p : State} (h : Alternates p) {a : Action} {mounts : List Mount}
    (hlast : a = .mount ↔ m.id ∉ p.mounts.map (·.id)) (hnew : a = .mount ↔ m.id ∈ mounts.map (·.id))
    (hother : ∀ id ≠ m.id, id ∈ mounts.map (·.id) ↔ id ∈ p.mounts.map (·.id)) :
    Alternates ⟨mounts, p.events ++ [(a, m)]⟩ := by
  refine ⟨fun id => ?_, fun id => ?_⟩
  all_goals
    simp only [actions_append]
    split_ifs with hid
  · subst hid
    rw [isChain_append]
    refine ⟨h.chain _, isChain_singleton _, fun b hb c hc => ?_⟩
    obtain rfl : a = c := by simpa using hc
    have := h.last _ b hb
    rintro rfl
    exact iff_not_self (this.symm.trans hlast)
  · rw [append_nil]
    exact h.chain id
  · subst hid
    intro b hb
    obtain rfl : a = b := by simpa using hb
    exact hnew
  · rw [append_nil]
    intro b hb
    exact (h.last id b hb).trans (hother id (Ne.symm hid)).symm

theorem Alternates.ran (h : Alternates s.prog) (hwf : Wf s) {p : State} {history : List Obs}
    (heffect : Effect s p history) : Alternates p := by
  cases heffect with
  | same => exact h
  | listed hrec hevents => exact ⟨by simp [hevents, actions], by simp [hevents, actions]⟩
  | @mount m hrec =>
    have habsent := hwf.absent _ (absent_of_recorded hrec)
    refine h.report (by simpa using habsent) (by simp) fun id hid => ?_
    simp [hid]
  | @umount m e _ hid hmem =>
    refine h.report (by simpa [hid] using hmem) (by simp [hid]) fun id hne => ?_
    rw [hid] at hne
    simp only [mem_map, mem_filter, decide_eq_true_eq]
    grind

theorem alternates_of_reachBy (h : fanotify.ReachBy ok s) : Alternates s.prog := by
  refine h.invariant (P := fun s => Alternates s.prog) ?_ ?_
  · rintro s ⟨-, -, -, -, hprog, -⟩
    exact ⟨by simp [hprog, actions], by simp [hprog, actions]⟩
  · intro s l s' hreach halt _ hstep
    cases l with
    | change id c => exact (changed_of_change hstep).prog ▸ halt
    | run fails =>
      have hwf := wf_of_reachBy hreach
      exact halt.ran hwf (hwf.ran hstep).effect

/-! ## No event is taken for news -/

/-- An entry that the kernel has not touched since has no event waiting. -/
structure Fresh (s : Sys) : Prop where
  entries : ∀ m ∈ s.prog.mounts, earned m.id s.history = true ∨
    (m.id ∈ s.ids ∧ ∀ e ∈ s.pending, e.id ≠ m.id)
  snapshot : ∀ i ∈ s.place.recorded, i ∈ s.ids ∨ ∃ e ∈ s.pending, e.id = i
  justified : ∀ id h, .emitted .umount id :: h <:+ s.history → earned id h = true

/-- A change of the kernel queues an event. -/
theorem Fresh.changed (h : Fresh s) (hwf : Wf s) (hc : Changed s id s') : Fresh s' := by
  obtain ⟨e, he, hqueue⟩ := hc.queue
  have hpending : s'.pending = s.pending ++ if s.marked then [e] else [] := by
    rw [Sys.pending, Sys.pending, hc.place, hqueue, append_assoc]
  refine ⟨fun m hm => ?_, fun i hi => ?_, fun i h' hsuffix => ?_⟩
  · rw [hc.prog] at hm
    have hentry := h.entries m hm
    by_cases hid : m.id = id
    · -- the kernel attaches only what is not attached, and anything else earns the report
      rcases hc.effect with ⟨-, hnot, -, hhistory⟩ | ⟨-, hhistory | hhistory⟩
      · rw [hhistory]
        exact .inl (hentry.resolve_right fun hin => hnot (hid ▸ hin.1))
      · exact .inl (by simp [hhistory, earned, hid])
      · exact .inl (by simp [hhistory, earned, hid])
    · rcases hentry with hearned | ⟨hin, hno⟩
      · refine .inl ?_
        rcases hc.effect with ⟨-, -, -, hhistory⟩ | ⟨-, hhistory | hhistory⟩ <;>
          simp [hhistory, earned, hearned]
      · refine .inr ⟨(hc.ids _ hid).2 hin, fun e' he' => ?_⟩
        rw [hpending, mem_append] at he'
        rcases he' with he' | he'
        · exact hno e' he'
        · split_ifs at he'
          · rw [mem_singleton.1 he', he]
            exact Ne.symm hid
          · exact absurd he' not_mem_nil
  · rw [hc.place] at hi
    have hmarked : s.marked = true := hwf.marked fun hmark => by simp [hmark] at hi
    rw [hpending, if_pos hmarked]
    by_cases hid : i = id
    · exact .inr ⟨e, by simp, he.trans hid.symm⟩
    · rcases h.snapshot i hi with hin | ⟨e', he', hi'⟩
      · exact .inl ((hc.ids i hid).2 hin)
      · exact .inr ⟨e', mem_append_left _ he', hi'⟩
  · refine h.justified i h' ?_
    rcases hc.effect with ⟨-, -, -, hhistory⟩ | ⟨-, hhistory | hhistory⟩
    · rwa [hhistory] at hsuffix
    · rw [hhistory, suffix_cons_iff] at hsuffix
      exact hsuffix.resolve_left (by simp)
    · rw [hhistory, suffix_cons_iff] at hsuffix
      exact hsuffix.resolve_left (by simp)

/-- A step of the backend, where what is recorded is settled -/
theorem Fresh.ran (h : Fresh s) (hwf : Wf s) (hran : Ran s s')
    (hsettled : ∀ i ∈ s.place.recorded, ∀ e ∈ s.pending, e.id ≠ i) : Fresh s' := by
  have hold :
      ∀ m ∈ s.prog.mounts, earned m.id s.history = true ∨
        (m.id ∈ s'.ids ∧ ∀ e ∈ s'.pending, e.id ≠ m.id) := by
    intro m hm
    rw [hran.ids]
    exact (h.entries m hm).imp_right fun hm => ⟨hm.1, fun e he => hm.2 e (hran.pending he)⟩
  -- the entry that the step adds
  have hadd : ∀ i ∈ s.place.recorded, i ∈ s'.ids ∧ ∀ e ∈ s'.pending, e.id ≠ i := by
    intro i hi
    refine ⟨?_, fun e he => hsettled i hi e (hran.pending he)⟩
    rw [hran.ids]
    exact (h.snapshot i hi).resolve_right fun ⟨e, he, hid⟩ => hsettled i hi e he hid
  have hne : ∀ i ∈ s.place.recorded, ∀ m ∈ s.prog.mounts, i ≠ m.id := by
    rintro i hi m hm rfl
    exact hwf.absent _ (absent_of_recorded hi) (mem_map_of_mem hm)
  have hsnapshot : ∀ i ∈ s'.place.recorded, i ∈ s'.ids ∨ ∃ e ∈ s'.pending, e.id = i :=
    fun i hi => .inl (hran.ids ▸ hran.recorded i hi)
  have hnew {m : Mount} {o : Obs} (hrec : s.place.recorded = some m.id)
      (hp : s'.prog.mounts = s.prog.mounts ++ [m])
      (hh : s'.history = o :: s.history) (ho : o = .listed m.id ∨ o = .emitted .mount m.id) :
      Fresh s' := by
    refine ⟨fun m' hm' => ?_, hsnapshot, fun i h' hsuffix => h.justified i h' ?_⟩
    · rw [hp, mem_append, mem_singleton] at hm'
      rcases hm' with hm' | rfl
      · refine (hold m' hm').imp_left fun hearned => ?_
        rcases ho with rfl | rfl <;> simp [hh, earned, hne _ hrec m' hm', hearned]
      · exact .inr (hadd _ hrec)
    · rw [hh, suffix_cons_iff] at hsuffix
      exact hsuffix.resolve_left (by rcases ho with rfl | rfl <;> simp)
  have heffect := hran.effect
  generalize hp : s'.prog = p at heffect
  generalize hh : s'.history = history at heffect
  cases heffect with
  | same => exact ⟨by rwa [hp, hh], hsnapshot, hh ▸ h.justified⟩
  | listed hrec => exact hnew hrec (by rw [hp]) hh (.inl rfl)
  | mount hrec => exact hnew hrec (by rw [hp, mountAttach]) hh (.inr rfl)
  | @umount m e he _ hmem =>
    refine ⟨fun m' hm' => ?_, hsnapshot, fun i h' hsuffix => ?_⟩
    · rw [hp] at hm'
      exact (hold m' (mem_of_mem_filter hm')).imp_left fun hearned => by
        simpa [hh, earned] using hearned
    · rw [hh, suffix_cons_iff] at hsuffix
      rcases hsuffix with heq | hsuffix
      · -- the event was waiting, so the kernel has touched the entry since
        obtain ⟨m', hm', hid⟩ := mem_map.1 hmem
        simp only [cons.injEq, Obs.emitted.injEq, true_and] at heq
        rw [heq.1, heq.2, ← hid]
        exact (h.entries m' hm').resolve_right fun hno => hno.2 e he hid.symm
      · exact h.justified i h' hsuffix

end

/-- If every mount is listed and reported only when no event of it is waiting, the events are
faithful. -/
theorem faithful_of_settled (s : Sys) (h : fanotify.ReachBy (settled · ·) s) : Faithful s := by
  have hfresh : Fresh s := by
    refine h.invariant ?_ ?_
    · rintro s ⟨-, -, -, hplace, hprog, hhistory⟩
      exact ⟨by simp [hprog], by simp [hplace], by simp [hhistory]⟩
    · intro s l s' hreach hfresh hok hstep
      have hwf := wf_of_reachBy hreach
      cases l with
      | change id c => exact hfresh.changed hwf (changed_of_change hstep)
      | run fails =>
        refine hfresh.ran hwf (hwf.ran hstep) fun i hi e he => ?_
        have hall : s.place.recorded.all (fun id => s.pending.all (·.id ≠ id)) = true := hok
        rw [Option.mem_def.1 hi] at hall
        simpa using all_eq_true.1 hall e he
  exact ⟨(wf_of_reachBy h).nodup, (alternates_of_reachBy h).chain, hfresh.justified⟩

/-- A namespace without mounts, before the mark is placed -/
def start : Sys := ⟨[], false, [], .mark, ⟨[], []⟩, []⟩

theorem init_start : fanotify.init start := ⟨by simp [start, Sys.ids], rfl, rfl, rfl, rfl, rfl⟩

/-- A mount is attached, reported, detached and reported. -/
theorem faithful_of_settled_detach :
    ∃ s, fanotify.ReachBy (settled · ·) s ∧ actions 1 s.prog.events = [.mount, .umount] ∧
      Faithful s := by
  obtain ⟨s, hr, hp⟩ := Lts.reachBy_of_exec init_start settled
    ([.run false, .run false, .run false, .change 1 (.attach ⟨[], [], [], []⟩)] ++
      replicate 7 (.run false) ++ [.change 1 .detach] ++ replicate 3 (.run false))
    (fun s => actions 1 s.prog.events = [.mount, .umount]) (by decide +kernel)
  exact ⟨s, hr, of_decide_eq_true hp, faithful_of_settled s hr⟩

/-- A mount is attached between the mark and the listing: it is listed, and its event is then taken
for that of a new mount, so that the listed one is reported as gone. -/
theorem not_faithful : ¬∀ s, fanotify.Reach s → Faithful s := by
  intro hall
  obtain ⟨s, hr, hp⟩ := Lts.reach_of_exec init_start
    ([.run false, .change 1 (.attach ⟨[], [], [], []⟩)] ++ replicate 7 (.run false))
    (fun s => s.history = [.emitted .umount 1, .listed 1]) (by decide +kernel)
  have hhistory := of_decide_eq_true hp
  cases (hall s hr).justified 1 [.listed 1] (by rw [hhistory])

end MakeInitrd.Mounts
