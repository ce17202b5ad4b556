import MakeInitrd.Initrd.DecompressZstd

/-!
# Whether `unzstd` ends

The size of the next piece is what the library returned last, and that is zero when a frame is
complete. If the frame ends where the piece ends and there is more input, a piece of zero bytes is
read again and again (`unzstd_returns_iff`).
-/

namespace MakeInitrd.Initrd

open CNum CMem Codec Loop

universe u
variable {σ : Type u} {d : FrameDecoder σ} {frameEnd : σ → Prop} {w : Bytes} {inread : Nat}
  {st : FeedState σ}

/-- `unzstd` before its first round. -/
def feedStart (d : FrameDecoder σ) : FeedState σ :=
  ⟨d.init, 0, [], d.inSize, none⟩

/-- The states of `unzstd`. -/
def FeedReached (d : FrameDecoder σ) (w : Bytes) (inread : Nat) (st : FeedState σ) : Prop :=
  Reaches (feedRound d w inread) (feedStart d) st

/-- When a frame has been completed by the last byte of a piece, it is the last byte of the input.
`*out` is NULL before the first call of the library only. -/
def FramesEndInside (d : FrameDecoder σ) (frameEnd : σ → Prop) (w : Bytes) (inread : Nat) : Prop :=
  ∀ st, FeedReached d w inread st → st.out ≠ none → st.input = [] → frameEnd st.dstream →
    st.pos = w.length

/-- The size of the next piece is the one `unzstd` starts with, or tells whether a frame is
complete. -/
structure Asking (d : FrameDecoder σ) (frameEnd : σ → Prop) (w : Bytes) (st : FeedState σ) :
    Prop where
  pos_le : st.pos ≤ w.length
  first : st.out = none → st.toRead ≠ 0
  later : st.out ≠ none → (st.toRead = 0 ↔ frameEnd st.dstream)

/-- What is yet to be read, to be consumed, and to be produced before `*out_size` is too large. -/
def feedBudget (w : Bytes) (st : FeedState σ) : Nat :=
  2 * (w.length - st.pos) + st.input.length + (ulongSize - (st.out.getD []).length)

theorem asking_start (d : FrameDecoder σ) (frameEnd : σ → Prop) (w : Bytes) :
    Asking d frameEnd w (feedStart d) :=
  ⟨Nat.zero_le _, fun _ => Nat.pos_iff_ne_zero.1 d.inSize_pos, fun h => absurd rfl h⟩

theorem Asking.read (h : Asking d frameEnd w st) : Asking d frameEnd w (st.read w) where
  pos_le := by
    have := h.pos_le
    simp only [FeedState.read]
    omega
  first := h.first
  later := h.later

theorem feedBudget_read (hinput : st.input = []) (hlt : st.pos < w.length) (hread : st.toRead ≠ 0) :
    feedBudget w (st.read w) < feedBudget w st := by
  have hlen := st.length_read w
  simp only [feedBudget, hlen, hinput, List.length_nil]
  simp only [FeedState.read]
  omega

variable {hint : Nat}

theorem Asking.called (h : Asking d frameEnd w st) (hd : d.Progressive frameEnd)
    (hne : st.input ≠ []) (hhint : (d.call st.dstream st.input d.outSize).hint = some hint) :
    Asking d frameEnd w (st.called d hint) :=
  ⟨h.pos_le, fun hout => absurd hout (Option.some_ne_none _), fun _ => hd.ends hne hhint⟩

theorem feedRound_call (hne : st.input ≠ [])
    (hhint : (d.call st.dstream st.input d.outSize).hint = some hint) :
    feedRound d w inread st = .done (.returned .fail st.out inread) ∨
      feedRound d w inread st = .again (st.called d hint) ∧
        ((st.called d hint).out.getD []).length < ulongSize := by
  simp only [feedRound, hne, hhint, if_false]
  split
  · exact .inl rfl
  · next hlt =>
    split
    · exact .inl rfl
    · exact .inr ⟨rfl, Nat.not_le.1 hlt⟩

theorem feedBudget_called (hd : d.Progressive frameEnd) (hne : st.input ≠ [])
    (hhint : (d.call st.dstream st.input d.outSize).hint = some hint)
    (hlt : ((st.called d hint).out.getD []).length < ulongSize) :
    feedBudget w (st.called d hint) < feedBudget w st := by
  have hused := hd.used_le st.dstream st.input
  have hprogress := hd.progress (s := st.dstream) hne (by rw [hhint]; exact nofun)
  rw [← List.length_pos_iff] at hprogress
  simp only [feedBudget, FeedState.called, List.length_drop, Option.getD_some,
    List.length_append] at hlt ⊢
  omega

/-- A round that is followed by another uses some of the budget, unless it reads a piece of no
bytes. -/
theorem Asking.again {st' : FeedState σ} (h : Asking d frameEnd w st) (hd : d.Progressive frameEnd)
    (hb : feedRound d w inread st = .again st') :
    Asking d frameEnd w st' ∧ ((st.input = [] → st.toRead ≠ 0) → feedBudget w st' <
      feedBudget w st) := by
  by_cases hinput : st.input = []
  · rcases Nat.lt_or_eq_of_le h.pos_le with hlt | heq
    · cases (feedRound_read hinput hlt).symm.trans hb
      exact ⟨h.read, fun hread => feedBudget_read hinput hlt (hread hinput)⟩
    · cases (feedRound_end hinput heq).symm.trans hb
  · cases hhint : (d.call st.dstream st.input d.outSize).hint with
    | none => cases (feedRound_error hinput hhint).symm.trans hb
    | some hint =>
      rcases feedRound_call hinput hhint with hdone | ⟨hagain, hlt⟩
      · cases hdone.symm.trans hb
      · cases hagain.symm.trans hb
        exact ⟨h.called hd hinput hhint, fun _ => feedBudget_called hd hinput hhint hlt⟩

theorem FeedReached.asking (h : FeedReached d w inread st) (hd : d.Progressive frameEnd) :
    Asking d frameEnd w st := by
  induction h with
  | refl => exact asking_start d frameEnd w
  | tail _ hb ih => exact (ih.again hd hb).1

theorem feedRound_stuck (hinput : st.input = []) (hlt : st.pos < w.length) (hread : st.toRead = 0) :
    feedRound d w inread st = .again st := by
  rw [feedRound_read hinput hlt]
  obtain ⟨dstream, pos, input, toRead, out⟩ := st
  obtain rfl : input = [] := hinput
  obtain rfl : toRead = 0 := hread
  simp only [FeedState.read, Nat.zero_min, Nat.add_zero, List.take_zero]

/-- `unzstd` ends exactly if no frame ends at the end of a piece with input behind it. -/
theorem unzstd_returns_iff (hd : d.Progressive frameEnd) (w : Bytes) (inread : Nat) :
    (∃ r, Unzstd d w inread r) ↔ FramesEndInside d frameEnd w inread := by
  constructor
  · rintro ⟨r, hr⟩ st hst hout hinput hend
    have hask := hst.asking hd
    refine hask.pos_le.lt_or_eq.resolve_left fun hlt => ?_
    have hstuck : feedRound d w inread st = .again st :=
      feedRound_stuck hinput hlt ((hask.later hout).2 hend)
    exact not_returns_of_fixed hstuck (hst.returns_iff.1 hr)
  · intro hinside
    suffices ∃ r, Returns (feedRound d w inread) (feedStart d) r ∧ True by
      obtain ⟨r, hr, -⟩ := this
      exact ⟨r, hr⟩
    refine returns_of_variant (I := FeedReached d w inread) (feedBudget w) (fun st hst => ?_) .refl
    have hask := hst.asking hd
    cases hb : feedRound d w inread st with
    | done r => exact .inl ⟨r, rfl, trivial⟩
    | again st' =>
      refine .inr ⟨st', rfl, hst.tail hb, (hask.again hd hb).2 fun hinput hread => ?_⟩
      -- A piece of no bytes is asked for at the end of a frame, and there the input ends.
      have hout : st.out ≠ none := fun hnone => hask.first hnone hread
      have hpos := hinside st hst hout hinput ((hask.later hout).1 hread)
      cases (feedRound_end hinput hpos).symm.trans hb

/-! ## Frames that are stored -/

/-- A library for frames of a byte with a length and that many bytes. The state is how many bytes of
a frame are still to come. -/
def stored : FrameDecoder Nat where
  init := 0
  call k x room :=
    match k, x with
    | 0, [] => ⟨0, 0, [], some 0⟩
    | 0, n :: _ => ⟨n.toNat, 1, [], some (min n.toNat 4)⟩
    | k + 1, x =>
      let n := min (k + 1) (min x.length room)
      ⟨k + 1 - n, n, x.take n, some (min (k + 1 - n) 4)⟩
  inSize := 4
  outSize := 4
  inSize_pos := by decide
  outSize_pos := by decide

theorem stored_progressive : stored.Progressive (· = 0) where
  used_le s x := by
    rcases s with _ | k
    · cases x <;> simp [stored]
    · simp only [stored]
      omega
  progress {s x} hx _ := by
    have hlen := List.length_pos_iff.2 hx
    rcases s with _ | k
    · cases x with
      | nil => exact absurd rfl hx
      | cons n x => exact .inl Nat.one_pos
    · refine .inl ?_
      simp only [stored]
      omega
  ends {s x hint} hx h := by
    rcases s with _ | k
    · cases x with
      | nil => exact absurd rfl hx
      | cons n x =>
        cases h
        simp only [stored]
        omega
    · cases h
      simp only [stored]
      omega
  hint_le {s x hint} hx h := by
    rcases s with _ | k
    · cases x with
      | nil => exact absurd rfl hx
      | cons n x =>
        cases h
        exact Nat.min_le_right _ _
    · cases h
      exact Nat.min_le_right _ _

/-- A frame of three bytes is read as one piece. -/
theorem unzstd_returns_stored :
    stored.Progressive (· = 0) ∧ FramesEndInside stored (· = 0) [3, 97, 98, 99] 0 :=
  ⟨stored_progressive, (unzstd_returns_iff stored_progressive [3, 97, 98, 99] 0).1
    ⟨.returned .ok (some [97, 98, 99]) 4, 5, by decide⟩⟩

/-- With a second frame behind it, it is read for ever. -/
theorem not_unzstd_returns :
    stored.Progressive (· = 0) ∧ ¬∃ r, Unzstd stored [3, 97, 98, 99, 0] 0 r := by
  refine ⟨stored_progressive, ?_⟩
  rintro ⟨r, hr⟩
  let stuck : FeedState Nat := ⟨0, 4, [], 0, some [97, 98, 99]⟩
  have hreach : Reaches (feedRound stored [3, 97, 98, 99, 0] 0) (feedStart stored) stuck :=
    .tail (.tail (.tail .refl rfl) rfl) rfl
  exact not_returns_of_fixed (feedRound_stuck rfl (by decide) rfl) (hreach.returns_iff.1 hr)

end MakeInitrd.Initrd
