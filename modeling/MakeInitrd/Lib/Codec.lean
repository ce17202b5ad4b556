import MakeInitrd.Lib.CMem

/-!
# Decompression libraries as their documentation describes them

A `Format` says where the compressed stream at the start of some bytes ends and what can be decoded
from bytes. A `Decoder` is a library that is called again and again with the input that is left and
room for some output; `Decoder.Session` is a sequence of such calls, and `Decoder.Documented` is
what the documentation promises about the next one. A `FrameDecoder` is fed its input piece by piece
and answers with a hint, zero at the end of a frame.
-/

namespace Codec

open CMem List

universe u

/-- A compressed format. A stream is found by looking at its own bytes only. -/
structure Format where
  /-- the length of the complete stream at the start of the bytes, if there is one -/
  length? : Bytes → Option Nat
  /-- what can be decoded from the bytes: of a complete stream its content -/
  content : Bytes → Bytes
  length_pos {bs : Bytes} {n : Nat} : length? bs = some n → 0 < n
  length_le {bs : Bytes} {n : Nat} : length? bs = some n → n ≤ bs.length
  extend {bs : Bytes} {n : Nat} : length? bs = some n → ∀ t,
    length? (bs.take n ++ t) = some n ∧ content (bs.take n ++ t) = content bs
  content_max (bs : Bytes) : (content bs).length ≤ objectMax

namespace Format

variable {f : Format} {bs : Bytes} {n m : Nat}

theorem length?_take (h : f.length? bs = some n) (hnm : n ≤ m) :
    f.length? (bs.take m) = some n ∧ f.content (bs.take m) = f.content bs := by
  have hsplit : bs.take n ++ (bs.take m).drop n = bs.take m := by
    rw [← take_append_drop n (bs.take m), take_take, Nat.min_eq_left hnm, drop_left']
    rw [length_take, Nat.min_eq_left (f.length_le h)]
  rw [← hsplit]
  exact f.extend h _

theorem length?_of_take (h : f.length? (bs.take m) = some n) : f.length? bs = some n ∧ n ≤ m := by
  have hle := f.length_le h
  rw [length_take] at hle
  have hnm : n ≤ m := hle.trans (Nat.min_le_left _ _)
  have htake := (f.extend h (bs.drop n)).1
  rw [take_take, Nat.min_eq_left hnm, take_append_drop] at htake
  exact ⟨htake, hnm⟩

end Format

/-! ## Libraries that are given all the input that is left -/

inductive Status where
  | ok
  | streamEnd
  | failed
deriving DecidableEq

/-- What a call does: it consumes input, produces output and reports. -/
structure Reply (σ : Type u) where
  state : σ
  used : Nat
  out : Bytes
  status : Status

/-- A library: its state after initialisation, and a call with input and room for output. -/
structure Decoder (σ : Type u) where
  init : σ
  call : σ → Bytes → Nat → Reply σ

namespace Decoder

variable {σ : Type u}

/-- Calls that all reported `ok`, each with all that was left of `w`: the state reached, how much of
`w` has been consumed, and what has been produced. -/
inductive Session (d : Decoder σ) (room : Nat) (w : Bytes) : σ → Nat → Bytes → Prop
  | start : Session d room w d.init 0 []
  | call {s : σ} {k : Nat} {out : Bytes} : Session d room w s k out →
      (d.call s (w.drop k) room).status = .ok →
      Session d room w (d.call s (w.drop k) room).state (k + (d.call s (w.drop k) room).used)
        (out ++ (d.call s (w.drop k) room).out)

/-- What the documentation promises about a call, when `k` bytes of `w` have been consumed and `out`
has been produced before. -/
structure Promise (f : Format) (room : Nat) (w : Bytes) (k : Nat) (out : Bytes) (r : Reply σ) :
    Prop where
  room_le : r.out.length ≤ room
  /-- what is produced is the content, in order -/
  produces : r.status ≠ .failed → out ++ r.out <+: f.content w
  /-- with the whole stream at hand a call only stops at its end or when the room is used up -/
  fills : r.status = .ok → f.length? w ≠ none → r.out.length = room
  /-- the end is reported for a complete stream only, when it is consumed and all is produced -/
  ends : r.status = .streamEnd → f.length? w = some (k + r.used) ∧ out ++ r.out = f.content w
  /-- no error is reported while a complete stream is decoded -/
  fails : r.status = .failed → f.length? w = none

/-- A library that keeps the promise in every session. `afterEnd` is what a call reports that is
made after the end of the stream; it consumes and produces nothing. -/
structure Documented (d : Decoder σ) (f : Format) (room : Nat) (afterEnd : Status) : Prop where
  next {w : Bytes} {s : σ} {k : Nat} {out : Bytes} : d.Session room w s k out →
    Promise f room w k out (d.call s (w.drop k) room)
  again {w : Bytes} {s : σ} {k : Nat} {out : Bytes} : d.Session room w s k out →
    (d.call s (w.drop k) room).status = .streamEnd → ∀ x,
      ∃ s', d.call (d.call s (w.drop k) room).state x room = ⟨s', 0, [], afterEnd⟩

/-- A library that reports the end of a stream in the very call that produces the last of its
content. -/
def Eager (d : Decoder σ) (f : Format) (room : Nat) : Prop :=
  ∀ {w : Bytes} {s : σ} {k : Nat} {out : Bytes}, d.Session room w s k out → f.length? w ≠ none →
    out ++ (d.call s (w.drop k) room).out = f.content w →
      (d.call s (w.drop k) room).status = .streamEnd

variable {d : Decoder σ} {f : Format} {room : Nat} {afterEnd : Status} {w : Bytes} {s : σ} {k : Nat}
  {out : Bytes}

theorem Session.dvd_length (hd : d.Documented f room afterEnd) (hw : f.length? w ≠ none)
    (h : d.Session room w s k out) : room ∣ out.length := by
  induction h with
  | start => exact Nat.dvd_zero room
  | call hs hok ih =>
    rw [length_append, (hd.next hs).fills hok hw]
    exact Nat.dvd_add ih (Nat.dvd_refl room)

theorem Session.ne_content (he : d.Eager f room) (hw : f.length? w ≠ none)
    (h : d.Session room w s k out) (hne : out ≠ []) : out ≠ f.content w := by
  intro hout
  cases h with
  | start => exact hne rfl
  | call hs hok => cases hok.symm.trans (he hs hw hout)

/-- An eager library fills the room in its last call exactly when the content is some full rooms. -/
theorem Session.full_iff (hd : d.Documented f room afterEnd) (he : d.Eager f room)
    (h : d.Session room w s k out) (hend : (d.call s (w.drop k) room).status = .streamEnd)
    (hroom : 0 < room) :
    (d.call s (w.drop k) room).out.length = room ↔ f.content w ≠ [] ∧
      room ∣ (f.content w).length := by
  have hpromise := hd.next h
  obtain ⟨hw, hout⟩ := hpromise.ends hend
  have hdvd := h.dvd_length hd (by rw [hw]; exact nofun)
  rw [← hout, length_append]
  constructor
  · intro hfull
    refine ⟨fun hnil => ?_, hfull.symm ▸ Nat.dvd_add hdvd (Nat.dvd_refl room)⟩
    rw [append_eq_nil_iff.1 hnil |>.2, length_nil] at hfull
    omega
  · rintro ⟨hne, hall⟩
    rcases Nat.eq_zero_or_pos (d.call s (w.drop k) room).out.length with hzero | hpos
    · rw [length_eq_zero_iff.1 hzero, append_nil] at hne hout
      exact absurd hout (h.ne_content he (by rw [hw]; exact nofun) hne)
    · exact Nat.le_antisymm hpromise.room_le (Nat.le_of_dvd hpos ((Nat.dvd_add_right hdvd).1 hall))

end Decoder

/-! ## Libraries that are fed piece by piece -/

/-- What a call does: `hint` is `none` for an error, zero at the end of a frame, and otherwise how
much input is asked for next. -/
structure FrameReply (σ : Type u) where
  state : σ
  used : Nat
  out : Bytes
  hint : Option Nat

/-- A library for framed streams, with the sizes it recommends for the buffers. -/
structure FrameDecoder (σ : Type u) where
  init : σ
  call : σ → Bytes → Nat → FrameReply σ
  inSize : Nat
  outSize : Nat
  inSize_pos : 0 < inSize
  outSize_pos : 0 < outSize

namespace FrameDecoder

variable {σ : Type u}

/-- Calls inside one frame, each with some of the bytes of `w` that come next. -/
inductive Session (d : FrameDecoder σ) (w : Bytes) : σ → Nat → Bytes → Prop
  | start : Session d w d.init 0 []
  | call {s : σ} {k hint : Nat} {out x : Bytes} : Session d w s k out → x ≠ [] → x <+: w.drop k →
      (d.call s x d.outSize).hint = some hint → hint ≠ 0 →
      Session d w (d.call s x d.outSize).state (k + (d.call s x d.outSize).used)
        (out ++ (d.call s x d.outSize).out)

/-- What the documentation promises about a call with the input `x`, when `k` bytes of `w` have been
consumed and `out` has been produced before. `rejects` are the bytes without a complete frame in
which the library finds an error. -/
structure Promise (f : Format) (rejects : Bytes → Prop) (w : Bytes) (k : Nat) (out x : Bytes)
    (r : FrameReply σ) : Prop where
  /-- an error is reported for bytes it rejects only -/
  fails : r.hint = none → rejects w
  used_le : r.used ≤ x.length
  /-- given input, a call consumes some or produces something -/
  progress : r.hint ≠ none → 0 < r.used ∨ r.out ≠ []
  /-- what is produced is the content, in order -/
  produces : r.hint ≠ none → out ++ r.out <+: f.content w
  /-- zero is returned exactly when a frame is completely decoded and flushed -/
  ends : r.hint = some 0 ↔ r.hint ≠ none ∧ f.length? w = some (k + r.used) ∧ out ++
    r.out = f.content w
  /-- the last byte of a frame is not consumed before all of the frame has been flushed -/
  flushes : f.length? w = some (k + r.used) → r.hint = some 0
  /-- the bytes behind a frame are not consumed with it -/
  stops {n : Nat} : f.length? w = some n → k + r.used ≤ n
  /-- bytes it rejects are not all consumed without an error -/
  reports : r.hint ≠ none → rejects w → k + r.used < w.length

/-- A library that keeps the promise in every session. -/
structure Documented (d : FrameDecoder σ) (f : Format) (rejects : Bytes → Prop) : Prop where
  rejects_ne_nil {w : Bytes} : rejects w → w ≠ []
  rejects_length? {w : Bytes} : rejects w → f.length? w = none
  next {w : Bytes} {s : σ} {k : Nat} {out x : Bytes} : d.Session w s k out → x ≠ [] →
    x <+: w.drop k → Promise f rejects w k out x (d.call s x d.outSize)

/-- A library that gets on in each of its states. `frameEnd` are the states in which a frame has
been completely decoded and flushed. -/
structure Progressive (d : FrameDecoder σ) (frameEnd : σ → Prop) : Prop where
  used_le (s : σ) (x : Bytes) : (d.call s x d.outSize).used ≤ x.length
  /-- given input, a call consumes some or produces something -/
  progress {s : σ} {x : Bytes} : x ≠ [] → (d.call s x d.outSize).hint ≠ none →
    0 < (d.call s x d.outSize).used ∨ (d.call s x d.outSize).out ≠ []
  /-- zero is returned exactly when a frame is completely decoded and flushed -/
  ends {s : σ} {x : Bytes} {hint : Nat} : x ≠ [] → (d.call s x d.outSize).hint = some hint →
    (hint = 0 ↔ frameEnd (d.call s x d.outSize).state)
  /-- what is asked for fits into the input buffer -/
  hint_le {s : σ} {x : Bytes} {hint : Nat} : x ≠ [] → (d.call s x d.outSize).hint = some hint →
    hint ≤ d.inSize

variable {d : FrameDecoder σ} {f : Format} {rejects : Bytes → Prop} {w : Bytes} {s : σ} {k : Nat}
  {out : Bytes}

theorem Session.lt_length (hd : d.Documented f rejects) (h : d.Session w s k out) {n : Nat}
    (hn : f.length? w = some n) : k < n := by
  cases h with
  | start => exact f.length_pos hn
  | call hs hne hx hhint h0 =>
    have hpromise := hd.next hs hne hx
    refine Nat.lt_of_le_of_ne (hpromise.stops hn) fun heq => h0 ?_
    exact Option.some.inj (hhint.symm.trans (hpromise.flushes (heq ▸ hn)))

theorem Session.lt_of_rejects (hd : d.Documented f rejects) (h : d.Session w s k out)
    (hw : rejects w) : k < w.length := by
  cases h with
  | start => exact length_pos_iff.2 (hd.rejects_ne_nil hw)
  | call hs hne hx hhint _ =>
    exact (hd.next hs hne hx).reports (by rw [hhint]; exact nofun) hw

end FrameDecoder

end Codec
