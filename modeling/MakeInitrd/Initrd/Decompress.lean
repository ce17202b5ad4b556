import MakeInitrd.Lib.Codec
import MakeInitrd.Lib.Loop

/-!
# `gunzip`, `bunzip2`, `unlzma` and `unzstd`

Three drivers of decompression libraries give the library all of their input and collect its output
in chunks until a chunk is not full; the fourth feeds it in pieces until the input is used up. The
libraries are parameters (`Codec.Decoder`, `Codec.FrameDecoder`), their initialisation and the
allocation of memory succeed, and `*out` is NULL and `*out_size` zero at the call, as `read_stream`
has them.
-/

namespace MakeInitrd.Initrd

open CNum CMem Codec Loop

universe u
variable {σ : Type u}

/-- `CHUNK` -/
def chunk : Nat := 0x4000

inductive DecompRet where
  /-- `DECOMP_OK` -/
  | ok
  /-- `DECOMP_FAIL` -/
  | fail
deriving DecidableEq

/-- How a call of a decompressor ends: it returns, with `*out` (`none` for NULL) and `*inread`, or
it leaves the program through `err`. -/
inductive Outcome where
  | returned (ret : DecompRet) (out : Option Bytes) (inread : Nat)
  | exit
deriving DecidableEq

/-- `realloc` to a size returns NULL: glibc frees a live pointer and returns NULL for size zero. -/
def reallocNull (out : Option Bytes) (size : Nat) : Bool :=
  out.isSome && size == 0

/-! ## The drivers that hand over all their input -/

/-- The variables of the loop: the library's state, `total_in` and `*out`. -/
structure PushState (σ : Type u) where
  strm : σ
  totalIn : Nat
  out : Option Bytes

/-- One round of the loop over chunks. `inread` is `*inread` before the call. -/
def pushRound (d : Decoder σ) (input : Bytes) (inread : Nat) (st : PushState σ) :
    Next (PushState σ) Outcome :=
  let r := d.call st.strm (input.drop st.totalIn) chunk
  let totalIn := st.totalIn + r.used
  if r.status = .failed then .done (.returned .fail st.out ((inread + totalIn) % ulongSize))
  else
    let out := st.out.getD [] ++ r.out
    if reallocNull st.out out.length then .done .exit
    else if r.out.length = chunk then .again ⟨r.state, totalIn, some out⟩
    else .done (.returned (if r.status = .streamEnd then .ok else .fail) (some out)
      ((inread + totalIn) % ulongSize))

/-- The loop over chunks, from the first call on. -/
def Push (d : Decoder σ) (input : Bytes) (inread : Nat) (r : Outcome) : Prop :=
  Returns (pushRound d input inread) ⟨d.init, 0, none⟩ r

/-- `gunzip`: the input is as long as an `unsigned int` can say. -/
def Gunzip (d : Decoder σ) (input : Bytes) (inread : Nat) (r : Outcome) : Prop :=
  Push d (input.take (input.length % 2 ^ 32)) inread r

/-- `bunzip2`, likewise. -/
def Bunzip2 (d : Decoder σ) (input : Bytes) (inread : Nat) (r : Outcome) : Prop :=
  Push d (input.take (input.length % 2 ^ 32)) inread r

/-- `unlzma` -/
def Unlzma (d : Decoder σ) (input : Bytes) (inread : Nat) (r : Outcome) : Prop :=
  Push d input inread r

/-- The variables of `unzstd`: the library's state, `pos`, what is left of the input buffer,
`to_read` and `*out`. -/
structure FeedState (σ : Type u) where
  dstream : σ
  pos : Nat
  input : Bytes
  toRead : Nat
  out : Option Bytes

/-- One round of the two loops of `unzstd`: a call while the input buffer has bytes left, otherwise
the next piece of the input. -/
def feedRound (d : FrameDecoder σ) (input : Bytes) (inread : Nat) (st : FeedState σ) :
    Next (FeedState σ) Outcome :=
  if st.input = [] then
    if st.pos < input.length then
      let bytesRead := min st.toRead (input.length - st.pos)
      .again { st with
        pos := st.pos + bytesRead
        input := (input.drop st.pos).take bytesRead }
    else .done (.returned .ok st.out input.length)
  else
    let r := d.call st.dstream st.input d.outSize
    match r.hint with
    | none => .done (.returned .fail st.out inread)
    | some hint =>
      let out := st.out.getD [] ++ r.out
      if ulongSize ≤ out.length then .done (.returned .fail st.out inread)
      else if reallocNull st.out out.length then .done (.returned .fail st.out inread)
      else .again { st with
        dstream := r.state
        input := st.input.drop r.used
        toRead := hint
        out := some out }

/-- `unzstd` -/
def Unzstd (d : FrameDecoder σ) (input : Bytes) (inread : Nat) (r : Outcome) : Prop :=
  Returns (feedRound d input inread) ⟨d.init, 0, [], d.inSize, none⟩ r

/-- What a decompressor is for: the content of the stream at the start of its input, with the length
of the stream added to `*inread`, and a failure when there is no complete stream. -/
def Decompresses (f : Format) (run : Outcome → Prop) (input : Bytes) (inread : Nat) : Prop :=
  match f.length? input with
  | some n => run (.returned .ok (some (f.content input)) ((inread + n) % ulongSize))
  | none => ∃ out inread', run (.returned .fail out inread')

/-! ## Chunks -/

section

variable {d : Decoder σ} {f : Format} {afterEnd : Status} {w : Bytes} {inread n : Nat}

/-- The loop is between two calls of a session, and `*out` is NULL or has something in it. -/
structure Running (d : Decoder σ) (w : Bytes) (st : PushState σ) : Prop where
  session : d.Session chunk w st.strm st.totalIn (st.out.getD [])
  out_ne : st.out ≠ some []

/-- What the loop has yet to produce. -/
def remaining (f : Format) (w : Bytes) (st : PushState σ) : Nat :=
  (f.content w).length - (st.out.getD []).length

theorem Running.start (d : Decoder σ) (w : Bytes) : Running d w ⟨d.init, 0, none⟩ :=
  ⟨.start, nofun⟩

variable {st : PushState σ}

theorem Running.reallocNull (h : Running d w st) (o : Bytes) :
    reallocNull st.out (st.out.getD [] ++ o).length = false := by
  have hne := h.out_ne
  cases hout : st.out with
  | none => rfl
  | some bs =>
    rw [hout] at hne
    have hpos := List.length_pos_iff.2 fun hnil : bs = [] => hne (congrArg some hnil)
    simp only [Initrd.reallocNull, Option.isSome_some, Option.getD_some, List.length_append,
      Bool.true_and, beq_eq_false_iff_ne]
    omega

theorem Running.next (h : Running d w st) (inread : Nat) (hd : d.Documented f chunk afterEnd)
    (hok : (d.call st.strm (w.drop st.totalIn) chunk).status = .ok)
    (hfull : (d.call st.strm (w.drop st.totalIn) chunk).out.length = chunk) :
    ∃ st', pushRound d w inread st = .again st' ∧ Running d w st' ∧ remaining f w st' <
      remaining f w st := by
  have hpromise := hd.next h.session
  have hsession := h.session.call hok
  generalize hr : d.call st.strm (w.drop st.totalIn) chunk = r at *
  have hpos : 0 < r.out.length := hfull ▸ by decide
  refine ⟨⟨r.state, st.totalIn + r.used, some (st.out.getD [] ++ r.out)⟩, ?_, ⟨hsession, ?_⟩, ?_⟩
  · simp only [pushRound, hr, hok, hfull, h.reallocNull, reduceCtorEq, if_false, if_true,
      Bool.false_eq_true]
  · intro hnil
    have hlen := congrArg List.length (Option.some.inj hnil)
    rw [List.length_append, List.length_nil] at hlen
    omega
  · have hle := (hpromise.produces (by rw [hok]; exact nofun)).length_le
    simp only [remaining, Option.getD_some, List.length_append] at hle ⊢
    omega

theorem Running.last (h : Running d w st) {r : Reply σ}
    (hr : d.call st.strm (w.drop st.totalIn) chunk = r) (hfull : r.out.length ≠ chunk)
    (hok : r.status ≠ .failed) :
    pushRound d w inread st = .done (.returned (if r.status = .streamEnd then .ok else .fail)
      (some (st.out.getD [] ++ r.out)) ((inread + (st.totalIn + r.used)) % ulongSize)) := by
  simp only [pushRound, hr, hok, hfull, h.reallocNull, if_false, Bool.false_eq_true]

theorem push_fail (inread : Nat) (hd : d.Documented f chunk afterEnd) (hnone : f.length? w = none) :
    ∃ out inread', Push d w inread (.returned .fail out inread') := by
  suffices ∃ r, Push d w inread r ∧ ∃ out inread', r = .returned .fail out inread' by
    obtain ⟨r, hret, out, inread', rfl⟩ := this
    exact ⟨out, inread', hret⟩
  refine returns_of_variant (I := Running d w) (remaining f w) ?_ (Running.start d w)
  intro st h
  have hpromise := hd.next h.session
  cases hstatus : (d.call st.strm (w.drop st.totalIn) chunk).status with
  | failed =>
    refine .inl ⟨_, by simp only [pushRound, hstatus, if_true]; rfl, ?_⟩
    exact ⟨_, _, rfl⟩
  | streamEnd => cases hnone.symm.trans (hpromise.ends hstatus).1
  | ok =>
    by_cases hfull : (d.call st.strm (w.drop st.totalIn) chunk).out.length = chunk
    · exact .inr (h.next inread hd hstatus hfull)
    · refine .inl ⟨_, h.last rfl hfull (by rw [hstatus]; exact nofun), ?_⟩
      rw [hstatus]
      exact ⟨_, _, rfl⟩

/-- The loop has everything but has not seen that the stream is at its end. -/
structure Ended (d : Decoder σ) (f : Format) (afterEnd : Status) (w : Bytes) (n : Nat)
    (st : PushState σ) : Prop where
  totalIn : st.totalIn = n
  out : st.out = some (f.content w)
  content_ne : f.content w ≠ []
  call (x : Bytes) : ∃ s', d.call st.strm x chunk = ⟨s', 0, [], afterEnd⟩

theorem Ended.last (h : Ended d f afterEnd w n st) :
    pushRound d w inread st = .done (.returned (if afterEnd = .streamEnd then .ok else .fail)
      (some (f.content w)) ((inread + n) % ulongSize)) := by
  obtain ⟨s', hcall⟩ := h.call (w.drop n)
  have hnull : reallocNull (some (f.content w)) (f.content w).length = false := by
    simp [reallocNull, h.content_ne]
  simp only [pushRound, hcall, h.totalIn, h.out, Option.getD_some, List.append_nil, List.length_nil,
    hnull, Nat.add_zero, Bool.false_eq_true, if_false]
  cases afterEnd <;> rfl

/-- The end of the stream in a call that fills its chunk takes the loop to another call. -/
theorem Running.ended (h : Running d w st) (inread : Nat)
    (hd : d.Documented f chunk afterEnd) (hn : f.length? w = some n)
    (hend : (d.call st.strm (w.drop st.totalIn) chunk).status = .streamEnd)
    (hfull : (d.call st.strm (w.drop st.totalIn) chunk).out.length = chunk) :
    ∃ st', pushRound d w inread st = .again st' ∧ Ended d f afterEnd w n st' := by
  have hagain := hd.again h.session hend
  have hends := (hd.next h.session).ends hend
  generalize hr : d.call st.strm (w.drop st.totalIn) chunk = r at *
  refine ⟨⟨r.state, st.totalIn + r.used, some (st.out.getD [] ++ r.out)⟩, ?_, ?_, ?_, ?_, hagain⟩
  · simp only [pushRound, hr, hend, hfull, h.reallocNull, reduceCtorEq, if_false, if_true,
      Bool.false_eq_true]
  · exact Option.some.inj (hends.1.symm.trans hn)
  · exact congrArg some hends.2
  · intro hnil
    have hlen := congrArg List.length (hends.2.trans hnil)
    rw [List.length_append, hfull, List.length_nil] at hlen
    cases (Nat.add_eq_zero_iff.1 hlen).2

/-- What the loop leaves with at the end of a complete stream: only a call after the end can turn it
into a failure. -/
def atEnd (f : Format) (afterEnd : Status) (w : Bytes) (inread n : Nat) (full : Bool) : Outcome :=
  .returned (if full && afterEnd ≠ .streamEnd then .fail else .ok) (some (f.content w))
    ((inread + n) % ulongSize)

/-- With a complete stream the loop comes to the call that reports its end, and leaves there or, if
that call fills its chunk, after another one. -/
theorem Running.complete (h : Running d w st) (inread : Nat)
    (hd : d.Documented f chunk afterEnd) (hn : f.length? w = some n) :
    ∃ s k out, d.Session chunk w s k out ∧ (d.call s (w.drop k) chunk).status = .streamEnd ∧
      Returns (pushRound d w inread) st (atEnd f afterEnd w inread n
        (decide ((d.call s (w.drop k) chunk).out.length = chunk))) := by
  -- the induction is on what is left to produce
  induction hm : remaining f w st using Nat.strongRecOn generalizing st with
  | ind m ih =>
    have hpromise := hd.next h.session
    cases hstatus : (d.call st.strm (w.drop st.totalIn) chunk).status with
    | failed => cases hn.symm.trans (hpromise.fails hstatus)
    | ok =>
      have hfull := hpromise.fills hstatus (by rw [hn]; exact nofun)
      obtain ⟨st', hround, h', hlt⟩ := h.next inread hd hstatus hfull
      obtain ⟨s, k, out, hs, hend, hret⟩ := ih _ (hm ▸ hlt) h' rfl
      exact ⟨s, k, out, hs, hend, returns_of_again hround hret⟩
    | streamEnd =>
      refine ⟨_, _, _, h.session, hstatus, ?_⟩
      by_cases hfull : (d.call st.strm (w.drop st.totalIn) chunk).out.length = chunk
      · obtain ⟨st', hround, h'⟩ := h.ended inread hd hn hstatus hfull
        refine returns_of_again hround (returns_of_done (h'.last.trans ?_))
        rw [atEnd, decide_eq_true hfull]
        cases afterEnd <;> rfl
      · obtain ⟨hlen, hout⟩ := hpromise.ends hstatus
        refine returns_of_done ((h.last rfl hfull (by rw [hstatus]; exact nofun)).trans ?_)
        rw [atEnd, decide_eq_false hfull, hstatus, hout, Option.some.inj (hn.symm.trans hlen)]
        rfl

end

/-! ## The three drivers -/

section

variable {d : Decoder σ} {f : Format} {input : Bytes} {inread : Nat}

theorem push_decompresses (hd : d.Documented f chunk .streamEnd) :
    Decompresses f (Push d input inread) input inread := by
  unfold Decompresses
  cases hn : f.length? input with
  | none => exact push_fail inread hd hn
  | some n =>
    obtain ⟨s, k, out, -, -, hret⟩ := (Running.start d input).complete inread hd hn
    simpa only [Push, atEnd, ne_eq, not_true_eq_false, decide_false, Bool.and_false,
      Bool.false_eq_true, if_false] using hret

/-- The content is a positive number of full chunks. -/
def FullChunks (bs : Bytes) : Prop :=
  bs ≠ [] ∧ chunk ∣ bs.length

theorem push_decompresses_iff (hd : d.Documented f chunk .failed) (he : d.Eager f chunk) :
    Decompresses f (Push d input inread) input inread ↔
      ∀ n, f.length? input = some n → ¬FullChunks (f.content input) := by
  unfold Decompresses
  cases hn : f.length? input with
  | none => exact ⟨fun _ => nofun, fun _ => push_fail inread hd hn⟩
  | some n =>
    obtain ⟨s, k, out, hs, hend, hret⟩ := (Running.start d input).complete inread hd hn
    have hfull := hs.full_iff hd he hend (by decide)
    constructor
    · intro h m hm hchunks
      rw [atEnd, decide_eq_true (hfull.2 hchunks)] at hret
      cases h.unique hret
    · intro h
      rw [atEnd, decide_eq_false (fun hl => h n rfl (hfull.1 hl))] at hret
      exact hret

/-- A driver that sees the first `m` bytes only finds the streams that end there. -/
theorem decompresses_take_iff {afterEnd : Status} {m : Nat} (hd : d.Documented f chunk afterEnd) :
    Decompresses f (Push d (input.take m) inread) input inread ↔
      (∀ n, f.length? input = some n → n ≤ m) ∧
        Decompresses f (Push d (input.take m) inread) (input.take m) inread := by
  by_cases hle : ∀ n, f.length? input = some n → n ≤ m
  · refine Iff.trans ?_ (and_iff_right hle).symm
    unfold Decompresses
    cases hn : f.length? input with
    | some n =>
      obtain ⟨hlen, hcontent⟩ := Format.length?_take hn (hle n hn)
      simp only [hlen, hcontent]
    | none =>
      cases hm : f.length? (input.take m) with
      | none => exact Iff.rfl
      | some k => cases hn.symm.trans (Format.length?_of_take hm).1
  · refine ⟨fun h => ?_, fun h => absurd h.1 hle⟩
    -- the stream is cut off, so the driver fails on what it sees
    push Not at hle
    obtain ⟨n, hn, hlt⟩ := hle
    have hnone : f.length? (input.take m) = none := by
      by_contra hsome
      obtain ⟨k, hk⟩ := Option.ne_none_iff_exists'.1 hsome
      obtain ⟨hk', hkm⟩ := Format.length?_of_take hk
      have := Option.some.inj (hn.symm.trans hk')
      omega
    obtain ⟨out, inread', hfail⟩ := push_fail inread hd hnone
    simp only [Decompresses, hn] at h
    cases h.unique hfail

/-- `gunzip` does its work exactly when the stream ends within what an `unsigned int` says of the
input's size. -/
theorem gunzip_decompresses_iff (hd : d.Documented f chunk .streamEnd) :
    Decompresses f (Gunzip d input inread) input inread ↔ ∀ n, f.length? input = some n →
      n ≤ input.length % 2 ^ 32 :=
  (decompresses_take_iff hd).trans (and_iff_left (push_decompresses hd))

/-- `bunzip2` does so exactly when, besides, the content is not a number of full chunks. -/
theorem bunzip2_decompresses_iff (hd : d.Documented f chunk .failed) (he : d.Eager f chunk) :
    Decompresses f (Bunzip2 d input inread) input inread ↔ ∀ n, f.length? input = some n →
        n ≤ input.length % 2 ^ 32 ∧ ¬FullChunks (f.content input) := by
  refine (decompresses_take_iff hd).trans ?_
  rw [push_decompresses_iff hd he]
  constructor
  · rintro ⟨hle, hchunks⟩ n hn
    obtain ⟨hlen, hcontent⟩ := Format.length?_take hn (hle n hn)
    exact ⟨hle n hn, hcontent ▸ hchunks n hlen⟩
  · refine fun h => ⟨fun n hn => (h n hn).1, fun n hn => ?_⟩
    obtain ⟨hlen, hle⟩ := Format.length?_of_take hn
    exact (Format.length?_take hlen hle).2.symm ▸ (h n hlen).2

end

end MakeInitrd.Initrd
