import MakeInitrd.Lib.CMem

/-!
# The list of mounts of `ueventd-mounts`

Both backends keep the mounts they know of in one list, in which `mount_find` looks up an entry by
its id or, if an id is not known, by its source, its target and its type. An entry that is attached
or detached is reported to the queue of `ueventd`.
-/

namespace MakeInitrd.Mounts

open CMem

/-- `enum mount_entry_t` -/
inductive EntryFlag where
  | old
  | new
  | cur
deriving DecidableEq, Repr

/-- `struct mounts` -/
structure Mount where
  flag : EntryFlag
  id : UInt64
  name : Bytes
  path : Bytes
  fstype : Bytes
  opts : Bytes
deriving DecidableEq, Repr

/-- `mount_new` -/
def mountNew (id : UInt64) (source target fstype opts : Bytes) : Mount :=
  ⟨.cur, id, source, target, fstype, opts⟩

inductive Action where
  | mount
  | umount
deriving DecidableEq, Repr

/-- The list `mounts` and what has been emitted to the queue -/
structure State where
  mounts : List Mount
  events : List (Action × Mount)
deriving DecidableEq

/-- The test of `mount_find`; an argument that is `NULL` is `none`. -/
def isMatch (id : UInt64) (target source fstype : Option Bytes) (m : Mount) : Bool :=
  if id ≠ 0 ∧ m.id ≠ 0 then m.id = id
  else
    match target, source, fstype with
    | some target, some source, some fstype => m.path = target ∧ m.name = source ∧ m.fstype = fstype
    | _, _, _ => false

/-- `mount_find`: where the first entry stands that matches -/
def mountFind (mounts : List Mount) (id : UInt64) (target source fstype : Option Bytes) :
    Option Nat :=
  mounts.findIdx? (isMatch id target source fstype)

/-- `mount_attach` -/
def mountAttach (s : State) (m : Mount) : State :=
  { mounts := s.mounts ++ [m], events := s.events ++ [(.mount, m)] }

/-- `mount_detach` of the entry at a position -/
def mountDetach (s : State) (i : Nat) : State :=
  match s.mounts[i]? with
  | some m => { mounts := s.mounts.eraseIdx i, events := s.events ++ [(.umount, m)] }
  | none => s

theorem mountDetach_append (kept rest : List Mount) (pos : Mount) (events : List (Action × Mount)) :
    mountDetach ⟨kept ++ pos :: rest, events⟩ kept.length =
      ⟨kept ++ rest, events ++ [(.umount, pos)]⟩ := by
  simp [mountDetach, List.eraseIdx_append_of_length_le]

end MakeInitrd.Mounts
