import MakeInitrd.Initrd.Decompress

/-!
# What `unzstd` returns

`unzstd` takes whatever it has got when the input is used up for a success: bytes behind the frame
are fed as well, and input that stops short of the end of the frame is not noticed. It also fails
when the first two calls both produce nothing, since the second `realloc` then asks for zero bytes.
-/

namespace MakeInitrd.Initrd

open CNum CMem Codec Loop List

universe u
variable {σ : Type u}

/-- The bytes of the second call, when the first one asked for `hint` bytes: the rest of the first
piece, or the next piece. -/
def secondPiece (d : FrameDecoder σ) (w : Bytes) (used hint : Nat) : Bytes :=
  if (w.take d.inSize).drop used = [] then (w.drop d.inSize).take hint
  else (w.take d.inSize).drop used

/-- The first two calls on the input produce nothing. -/
def SilentTwice (d : FrameDecoder σ) (w : Bytes) : Prop :=
  w ≠ [] ∧
    let r := d.call d.init (w.take d.inSize) d.outSize
    r.out = [] ∧ ∃ hint, r.hint = some hint ∧ secondPiece d w r.used hint ≠ [] ∧
      let r' := d.call r.state (secondPiece d w r.used hint) d.outSize
      r'.out = [] ∧ r'.hint ≠ none

section

variable {d : FrameDecoder σ} {f : Format} {rejects : Bytes → Prop} {w : Bytes} {inread k : Nat}
  {st : FeedState σ}

/-- The loop is inside a frame: `k` bytes have been consumed, and the input buffer holds the next
ones. -/
structure Feeding (d : FrameDecoder σ) (w : Bytes) (k : Nat) (st : FeedState σ) : Prop where
  session : d.Session w st.dstream k (st.out.getD [])
  pos_eq : k + st.input.length = st.pos
  pos_le : st.pos ≤ w.length
  input : st.input <+: w.drop k
  toRead_pos : 0 < st.toRead

/-- The loop has fed everything and has all of the content. -/
structure Fed (f : Format) (w : Bytes) (st : FeedState σ) : Prop where
  input : st.input = []
  pos_eq : st.pos = w.length
  out : st.out = some (f.content w)
  length? : f.length? w = some w.length

/-- What the loop has yet to read, to consume and to produce. -/
def feedLeft (f : Format) (w : Bytes) (st : FeedState σ) : Nat :=
  (w.length - st.pos) + (w.length + st.input.length - st.pos) +
    ((f.content w).length - (st.out.getD []).length)

theorem feeding_start (d : FrameDecoder σ) (w : Bytes) :
    Feeding d w 0 ⟨d.init, 0, [], d.inSize, none⟩ :=
  ⟨.start, rfl, Nat.zero_le _, List.nil_prefix, d.inSize_pos⟩

theorem feedRound_end (hinput : st.input = []) (hpos : st.pos = w.length) :
    feedRound d w inread st = .done (.returned .ok st.out w.length) := by
  simp only [feedRound, hinput, hpos, Nat.lt_irrefl, if_true, if_false]

/-- The next piece is read into the input buffer. -/
def FeedState.read (w : Bytes) (st : FeedState σ) : FeedState σ :=
  { st with
    pos := st.pos + min st.toRead (w.length - st.pos)
    input := (w.drop st.pos).take (min st.toRead (w.length - st.pos)) }

theorem feedRound_read (hinput : st.input = []) (hlt : st.pos < w.length) :
    feedRound d w inread st = .again (st.read w) := by
  simp only [feedRound, hinput, hlt, if_true]
  rfl

theorem FeedState.length_read (w : Bytes) (st : FeedState σ) :
    (st.read w).input.length = min st.toRead (w.length - st.pos) := by
  simp only [FeedState.read, length_take, length_drop]
  omega

theorem Feeding.read (h : Feeding d w k st) (inread : Nat) (f : Format) (hinput : st.input = [])
    (hlt : st.pos < w.length) :
    feedRound d w inread st = .again (st.read w) ∧ Feeding d w k (st.read w) ∧
      (st.read w).input ≠ [] ∧ feedLeft f w (st.read w) < feedLeft f w st := by
  have hk : k = st.pos := by
    have := h.pos_eq
    rwa [hinput] at this
  have hread := h.toRead_pos
  have hlen := st.length_read w
  refine ⟨feedRound_read hinput hlt, ⟨h.session, ?_, ?_, ?_, hread⟩, ?_, ?_⟩
  · rw [hlen, hk]
    rfl
  · simp only [FeedState.read]
    omega
  · rw [hk]
    exact List.take_prefix _ _
  · rw [← length_pos_iff, hlen]
    omega
  · simp only [feedLeft, hlen, hinput, length_nil]
    simp only [FeedState.read]
    omega

/-- The state after a call that asks for `hint` bytes. -/
def FeedState.called (d : FrameDecoder σ) (st : FeedState σ) (hint : Nat) : FeedState σ :=
  let r := d.call st.dstream st.input d.outSize
  { st with
    dstream := r.state
    input := st.input.drop r.used
    toRead := hint
    out := some (st.out.getD [] ++ r.out) }

theorem feedRound_error (hne : st.input ≠ [])
    (hhint : (d.call st.dstream st.input d.outSize).hint = none) :
    feedRound d w inread st = .done (.returned .fail st.out inread) := by
  simp only [feedRound, hne, hhint, if_false]

theorem feedRound_silent {hint : Nat} (hne : st.input ≠ [])
    (hhint : (d.call st.dstream st.input d.outSize).hint = some hint) (hout : st.out = some [])
    (hnil : (d.call st.dstream st.input d.outSize).out = []) :
    feedRound d w inread st = .done (.returned .fail st.out inread) := by
  simp only [feedRound, hne, hhint, hout, hnil, Option.getD_some, append_nil, length_nil,
    reallocNull, Option.isSome_some, if_false]
  split <;> rfl

variable {hint : Nat}

/-- What is produced fits into memory, so any other call is followed by another round. -/
theorem Feeding.round (h : Feeding d w k st) (inread : Nat) (hd : d.Documented f rejects)
    (hne : st.input ≠ []) (hhint : (d.call st.dstream st.input d.outSize).hint = some hint)
    (hsome : st.out = some [] → (d.call st.dstream st.input d.outSize).out ≠ []) :
    feedRound d w inread st = .again (st.called d hint) := by
  have hpromise := hd.next h.session hne h.input
  have hle := (hpromise.produces (by rw [hhint]; exact nofun)).length_le
  have hmax := f.content_max w
  have hfits :
      ¬ulongSize ≤ (st.out.getD [] ++ (d.call st.dstream st.input d.outSize).out).length := by
    simp only [ulongSize, objectMax] at hmax ⊢
    omega
  have hnull :
      reallocNull st.out (st.out.getD [] ++ (d.call st.dstream st.input d.outSize).out).length =
        false := by
    cases hout : st.out with
    | none => rfl
    | some bs =>
      rw [hout] at hsome
      have : bs ++ (d.call st.dstream st.input d.outSize).out ≠ [] := by
        intro happ
        obtain ⟨rfl, hnil⟩ := append_eq_nil_iff.1 happ
        exact hsome rfl hnil
      simpa only [reallocNull, Option.isSome_some, Bool.true_and, Option.getD_some,
        beq_eq_false_iff_ne, ne_eq, length_eq_zero_iff] using this
  simp only [feedRound, hne, hhint, hfits, hnull, Bool.false_eq_true, if_false]
  rfl

section
variable (h : Feeding d w k st) (hd : d.Documented f rejects) (hne : st.input ≠ [])
  (hhint : (d.call st.dstream st.input d.outSize).hint = some hint)
include h hd hne hhint

theorem Feeding.called_lt : feedLeft f w (st.called d hint) < feedLeft f w st := by
  have hpromise := hd.next h.session hne h.input
  have hle := (hpromise.produces (by rw [hhint]; exact nofun)).length_le
  have hpos := h.pos_le
  have hk := h.pos_eq
  have hused := hpromise.used_le
  have hprogress := hpromise.progress (by rw [hhint]; exact nofun)
  rw [← length_pos_iff] at hprogress
  simp only [feedLeft, FeedState.called, length_drop, Option.getD_some, length_append] at hle ⊢
  omega

theorem Feeding.called (h0 : hint ≠ 0) :
    Feeding d w (k + (d.call st.dstream st.input d.outSize).used) (st.called d hint) := by
  have hpromise := hd.next h.session hne h.input
  refine ⟨h.session.call hne h.input hhint h0, ?_, h.pos_le, ?_, Nat.pos_of_ne_zero h0⟩
  · have hused := hpromise.used_le
    have hk := h.pos_eq
    simp only [FeedState.called, length_drop]
    omega
  · rw [← drop_drop]
    exact h.input.drop _

end

theorem Feeding.fed (h : Feeding d w k st) (hd : d.Documented f rejects)
    (hn : ∀ n, f.length? w = some n → n = w.length) (hne : st.input ≠ [])
    (hhint : (d.call st.dstream st.input d.outSize).hint = some 0) :
    Fed f w (st.called d 0) ∧ ¬rejects w := by
  have hpromise := hd.next h.session hne h.input
  obtain ⟨-, hlen, hout⟩ := hpromise.ends.1 hhint
  have hk := hn _ hlen
  have hpos := h.pos_le
  have hpe := h.pos_eq
  have hused := hpromise.used_le
  refine ⟨⟨?_, ?_, congrArg some hout, hk ▸ hlen⟩, fun hrej => ?_⟩
  · exact drop_eq_nil_of_le (by omega)
  · show st.pos = w.length
    omega
  · have := hpromise.reports (by rw [hhint]; exact nofun) hrej
    omega

/-- What the loop leaves with: a failure, or success with everything consumed and, if there was a
complete frame, its content. -/
def Verdict (f : Format) (w : Bytes) (inread : Nat) (bad : Prop) (r : Outcome) : Prop :=
  (bad → ∃ out, r = .returned .fail out inread) ∧ (¬bad → ∃ out, r = .returned .ok out w.length ∧
      (f.length? w ≠ none → out = some (f.content w)))

theorem Verdict.congr {bad bad' : Prop} {r : Outcome} (h : Verdict f w inread bad r)
    (hbad : bad ↔ bad') : Verdict f w inread bad' r := by
  rwa [propext hbad] at h

theorem verdict_fail {bad : Prop} (hbad : bad) (out : Option Bytes) :
    Verdict f w inread bad (.returned .fail out inread) :=
  ⟨fun _ => ⟨out, rfl⟩, fun h => absurd hbad h⟩

theorem Fed.round (h : Fed f w st) (d : FrameDecoder σ) (inread : Nat) (hrej : ¬rejects w) :
    ∃ r, feedRound d w inread st = .done r ∧ Verdict f w inread (rejects w) r :=
  ⟨_, feedRound_end h.input h.pos_eq, fun hbad => absurd hbad hrej,
    fun _ => ⟨_, rfl, fun _ => h.out⟩⟩

theorem Feeding.stop (h : Feeding d w k st) (inread : Nat) (hd : d.Documented f rejects)
    (hn : ∀ n, f.length? w = some n → n = w.length) (hinput : st.input = [])
    (hpos : st.pos = w.length) :
    ∃ r, feedRound d w inread st = .done r ∧ Verdict f w inread (rejects w) r := by
  have hk : k = w.length := by
    rw [← hpos, ← h.pos_eq, hinput]
    rfl
  refine ⟨_, feedRound_end hinput hpos, fun hbad => ?_, fun _ => ⟨_, rfl, fun hlen => ?_⟩⟩
  · exact absurd (h.session.lt_of_rejects hd hbad) (by omega)
  · obtain ⟨n, hlen⟩ := Option.ne_none_iff_exists'.1 hlen
    exact absurd (h.session.lt_length hd hlen) (by have := hn n hlen; omega)

/-- The loop once there has been output -/
theorem Feeding.verdict (h : Feeding d w k st) (inread : Nat) (hd : d.Documented f rejects)
    (hn : ∀ n, f.length? w = some n → n = w.length) (hout : st.out.getD [] ≠ []) :
    ∃ r, Returns (feedRound d w inread) st r ∧ Verdict f w inread (rejects w) r := by
  refine returns_of_variant (I := fun st => (Fed f w st ∧ ¬rejects w) ∨
    ∃ k, Feeding d w k st ∧ st.out.getD [] ≠ []) (feedLeft f w) ?_ (.inr ⟨k, h, hout⟩)
  rintro st (⟨hfed, hrej⟩ | ⟨k, h, hout⟩)
  · exact .inl (hfed.round d inread hrej)
  by_cases hne : st.input = []
  · rcases Nat.lt_or_eq_of_le h.pos_le with hlt | heq
    · obtain ⟨hround, h', -, hless⟩ := h.read inread f hne hlt
      exact .inr ⟨_, hround, .inr ⟨k, h', hout⟩, hless⟩
    · exact .inl (h.stop inread hd hn hne heq)
  · cases hhint : (d.call st.dstream st.input d.outSize).hint with
    | none =>
      have hbad := (hd.next h.session hne h.input).fails hhint
      exact .inl ⟨_, feedRound_error hne hhint, verdict_fail hbad _⟩
    | some hint =>
      have hsome : st.out ≠ some [] := fun heq => hout (by rw [heq]; rfl)
      refine .inr ⟨_, h.round inread hd hne hhint (fun heq => absurd heq hsome), ?_,
        h.called_lt hd hne hhint⟩
      rcases Nat.eq_zero_or_pos hint with rfl | hpos
      · exact .inl (h.fed hd hn hne hhint)
      · refine .inr ⟨_, h.called hd hne hhint (Nat.pos_iff_ne_zero.1 hpos), fun hnil => hout ?_⟩
        exact (append_eq_nil_iff.1 hnil).1

theorem Feeding.after (h : Feeding d w k st) (inread : Nat) (hd : d.Documented f rejects)
    (hn : ∀ n, f.length? w = some n → n = w.length) (hne : st.input ≠ [])
    (hhint : (d.call st.dstream st.input d.outSize).hint = some hint)
    (hout : (d.call st.dstream st.input d.outSize).out ≠ []) :
    ∃ r, Returns (feedRound d w inread) st r ∧ Verdict f w inread (rejects w) r := by
  have hround := h.round inread hd hne hhint fun _ => hout
  rcases Nat.eq_zero_or_pos hint with rfl | hpos
  · obtain ⟨hfed, hrej⟩ := h.fed hd hn hne hhint
    obtain ⟨r, hdone, hr⟩ := hfed.round d inread hrej
    exact ⟨r, returns_of_again hround (returns_of_done hdone), hr⟩
  · have hnext : ((st.called d hint).out.getD []) ≠ [] :=
      fun hnil => hout (append_eq_nil_iff.1 hnil).2
    obtain ⟨r, hret, hr⟩ :=
      (h.called hd hne hhint (Nat.pos_iff_ne_zero.1 hpos)).verdict inread hd hn hnext
    exact ⟨r, returns_of_again hround hret, hr⟩

theorem Feeding.second (h : Feeding d w k st) (inread : Nat) (hd : d.Documented f rejects)
    (hn : ∀ n, f.length? w = some n → n = w.length) (hne : st.input ≠ [])
    (hout : st.out = some []) :
    ∃ r, Returns (feedRound d w inread) st r ∧ Verdict f w inread
      (rejects w ∨ (d.call st.dstream st.input d.outSize).out = [] ∧
        (d.call st.dstream st.input d.outSize).hint ≠ none) r := by
  cases hhint : (d.call st.dstream st.input d.outSize).hint with
  | none =>
    have hbad := (hd.next h.session hne h.input).fails hhint
    exact ⟨_, returns_of_done (feedRound_error hne hhint), verdict_fail (.inl hbad) _⟩
  | some hint =>
    by_cases hnil : (d.call st.dstream st.input d.outSize).out = []
    · exact ⟨_, returns_of_done (feedRound_silent hne hhint hout hnil),
        verdict_fail (.inr ⟨hnil, nofun⟩) _⟩
    · obtain ⟨r, hret, hr⟩ := h.after inread hd hn hne hhint hnil
      exact ⟨r, hret, hr.congr (or_iff_left fun hsilent => hnil hsilent.1).symm⟩

def feedFirst (d : FrameDecoder σ) (w : Bytes) : FeedState σ :=
  FeedState.read w ⟨d.init, 0, [], d.inSize, none⟩

theorem feedFirst_input (d : FrameDecoder σ) (w : Bytes) :
    (feedFirst d w).input = w.take d.inSize := by
  simp only [feedFirst, FeedState.read, drop_zero, Nat.sub_zero]
  exact take_eq_take_iff.2 (by omega)

theorem feedFirst_pos (d : FrameDecoder σ) (w : Bytes) :
    (feedFirst d w).pos = min d.inSize w.length := by
  simp only [feedFirst, FeedState.read, Nat.sub_zero, Nat.zero_add]

theorem silentTwice_iff {r : FrameReply σ} (hw : w ≠ [])
    (hr : d.call d.init (w.take d.inSize) d.outSize = r) (hout : r.out = [])
    (hhint : r.hint = some hint) :
    SilentTwice d w ↔ secondPiece d w r.used hint ≠ [] ∧
      (d.call r.state (secondPiece d w r.used hint) d.outSize).out = [] ∧
      (d.call r.state (secondPiece d w r.used hint) d.outSize).hint ≠ none := by
  simp only [SilentTwice, hr, hout, hw, ne_eq, not_false_eq_true, true_and, hhint,
    Option.some.injEq, exists_eq_left']

theorem Feeding.quiet {used : Nat} (h : Feeding d w used st) (inread : Nat)
    (hd : d.Documented f rejects) (hn : ∀ n, f.length? w = some n → n = w.length)
    (hout : st.out = some []) (hinput : st.input = (w.take d.inSize).drop used)
    (hpos : st.pos = min d.inSize w.length) :
    ∃ r, Returns (feedRound d w inread) st r ∧
      Verdict f w inread (rejects w ∨ secondPiece d w used st.toRead ≠ [] ∧
        (d.call st.dstream (secondPiece d w used st.toRead) d.outSize).out = [] ∧
        (d.call st.dstream (secondPiece d w used st.toRead) d.outSize).hint ≠ none) r := by
  by_cases hnil : st.input = []
  · have hpiece : secondPiece d w used st.toRead = (w.drop d.inSize).take st.toRead :=
      if_pos (hinput ▸ hnil)
    rcases Nat.lt_or_eq_of_le h.pos_le with hlt | heq
    · -- the second piece is read from the input
      obtain ⟨hround, h', hne, -⟩ := h.read inread f hnil hlt
      have hread : (st.read w).input = secondPiece d w used st.toRead := by
        have hsize : st.pos = d.inSize := by omega
        rw [hpiece, ← hsize]
        exact take_eq_take_iff.2 (by rw [length_drop]; omega)
      obtain ⟨r, hret, hr⟩ := h'.second inread hd hn hne hout
      rw [hread] at hne hr
      exact ⟨r, returns_of_again hround hret, hr.congr (or_congr_right (and_iff_right hne).symm)⟩
    · -- there is no second piece
      obtain ⟨r, hdone, hr⟩ := h.stop inread hd hn hnil heq
      have hempty : secondPiece d w used st.toRead = [] := by
        rw [hpiece, drop_eq_nil_of_le (by omega), take_nil]
      exact ⟨r, returns_of_done hdone, hr.congr (or_iff_left fun hs => hs.1 hempty).symm⟩
  · have hpiece : secondPiece d w used st.toRead = st.input := by
      rw [secondPiece, if_neg (hinput ▸ hnil), hinput]
    obtain ⟨r, hret, hr⟩ := h.second inread hd hn hnil hout
    rw [hpiece]
    exact ⟨r, hret, hr.congr (or_congr_right (and_iff_right hnil).symm)⟩

/-- The loop from its first piece on -/
theorem Feeding.first (h : Feeding d w 0 (feedFirst d w)) (inread : Nat)
    (hd : d.Documented f rejects) (hn : ∀ n, f.length? w = some n → n = w.length)
    (hne : (feedFirst d w).input ≠ []) (hw : w ≠ []) :
    ∃ r, Returns (feedRound d w inread) (feedFirst d w) r ∧
      Verdict f w inread (rejects w ∨ SilentTwice d w) r := by
  have hcall : d.call (feedFirst d w).dstream (feedFirst d w).input d.outSize =
      d.call d.init (w.take d.inSize) d.outSize := by
    rw [feedFirst_input]
    rfl
  cases hhint : (d.call d.init (w.take d.inSize) d.outSize).hint with
  | none =>
    rw [← hcall] at hhint
    have hbad := (hd.next h.session hne h.input).fails hhint
    exact ⟨_, returns_of_done (feedRound_error hne hhint), verdict_fail (.inl hbad) _⟩
  | some hint =>
    by_cases hnil : (d.call d.init (w.take d.inSize) d.outSize).out = []
    · have hround := h.round inread hd hne (hcall ▸ hhint) nofun
      have hout : ((feedFirst d w).called d hint).out = some [] := by
        show some ([] ++ (d.call (feedFirst d w).dstream (feedFirst d w).input d.outSize).out) = _
        rw [hcall, hnil]
        rfl
      have hinput : ((feedFirst d w).called d hint).input =
          (w.take d.inSize).drop (d.call d.init (w.take d.inSize) d.outSize).used := by
        show (feedFirst d w).input.drop _ = _
        rw [hcall, feedFirst_input]
      have hpos : ((feedFirst d w).called d hint).pos = min d.inSize w.length := feedFirst_pos d w
      rcases Nat.eq_zero_or_pos hint with rfl | hpositive
      · obtain ⟨hfed, hrej⟩ := h.fed hd hn hne (hcall ▸ hhint)
        obtain ⟨r, hdone, hr⟩ := hfed.round d inread hrej
        refine ⟨r, returns_of_again hround (returns_of_done hdone), hr.congr (or_iff_left ?_).symm⟩
        -- the frame is over, so there is no second piece
        rw [silentTwice_iff hw rfl hnil hhint]
        refine fun hs => hs.1 ?_
        rw [secondPiece, if_pos (hinput.symm.trans hfed.input), take_zero]
      · have h' := h.called hd hne (hcall ▸ hhint) (Nat.pos_iff_ne_zero.1 hpositive)
        rw [Nat.zero_add, hcall] at h'
        obtain ⟨r, hret, hr⟩ := h'.quiet inread hd hn hout hinput hpos
        refine ⟨r, returns_of_again hround hret, hr.congr (or_congr_right ?_)⟩
        have hstate : ((feedFirst d w).called d hint).dstream =
            (d.call d.init (w.take d.inSize) d.outSize).state := congrArg FrameReply.state hcall
        rw [silentTwice_iff hw rfl hnil hhint, hstate]
        exact Iff.rfl
    · obtain ⟨r, hret, hr⟩ := h.after inread hd hn hne (hcall ▸ hhint) (hcall ▸ hnil)
      exact ⟨r, hret, hr.congr (or_iff_left fun hs => hnil hs.2.1).symm⟩

theorem unzstd_verdict (inread : Nat) (hd : d.Documented f rejects)
    (hn : ∀ n, f.length? w = some n → n = w.length) :
    ∃ r, Unzstd d w inread r ∧ Verdict f w inread (rejects w ∨ SilentTwice d w) r := by
  have hstart := feeding_start d w
  by_cases hw : w = []
  · obtain ⟨r, hdone, hr⟩ := hstart.stop inread hd hn rfl (by rw [hw]; rfl)
    exact ⟨r, returns_of_done hdone, hr.congr (or_iff_left fun hs => hs.1 hw).symm⟩
  · obtain ⟨hround, h, hne, -⟩ := hstart.read inread f rfl (length_pos_iff.2 hw)
    suffices ∃ r, Returns (feedRound d w inread) (feedFirst d w) r ∧
        Verdict f w inread (rejects w ∨ SilentTwice d w) r by
      obtain ⟨r, hret, hr⟩ := this
      exact ⟨r, returns_of_again hround hret, hr⟩
    exact Feeding.first h inread hd hn hne hw

/-- Whatever `unzstd` returns with success is said to be all of the input. -/
theorem unzstd_inread {out : Option Bytes} {inread' : Nat}
    (h : Unzstd d w inread (.returned .ok out inread')) : inread' = w.length := by
  refine h.rule (I := fun _ => True)
    (Q := fun r => ∀ out inread', r = .returned .ok out inread' → inread' = w.length) trivial
    (fun _ _ _ _ => trivial) ?_ out inread' rfl
  rintro st r - hdone out inread' rfl
  unfold feedRound at hdone
  split at hdone
  · split at hdone
    · cases hdone
    · cases hdone
      rfl
  · dsimp only at hdone
    split at hdone
    · cases hdone
    · split at hdone
      · cases hdone
      · split at hdone <;> cases hdone

/-- `unzstd` does its work exactly when the frame is all of the input and the first two calls do not
both produce nothing; without a complete frame, exactly when the library finds an error or those
calls both produce nothing. -/
theorem unzstd_decompresses_iff (hd : d.Documented f rejects) (hw : w.length < ulongSize) :
    Decompresses f (Unzstd d w 0) w 0 ↔
      (∀ n, f.length? w = some n → n = w.length ∧ ¬SilentTwice d w) ∧
        (f.length? w = none → rejects w ∨ SilentTwice d w) := by
  unfold Decompresses
  cases hlen : f.length? w with
  | none =>
    obtain ⟨r, hret, hbad, hgood⟩ := unzstd_verdict 0 hd (w := w) (by rw [hlen]; exact nofun)
    refine ⟨fun ⟨out, inread', hfail⟩ => ⟨nofun, fun _ => ?_⟩, fun h => ?_⟩
    · by_contra hnot
      obtain ⟨out', rfl, -⟩ := hgood hnot
      cases hfail.unique hret
    · obtain ⟨out, rfl⟩ := hbad (h.2 rfl)
      exact ⟨out, 0, hret⟩
  | some n =>
    have hnw : n < ulongSize := Nat.lt_of_le_of_lt (f.length_le hlen) hw
    show Unzstd d w 0 (.returned .ok _ ((0 + n) % ulongSize)) ↔ _
    rw [Nat.zero_add, Nat.mod_eq_of_lt hnw]
    constructor
    · refine fun hok => ⟨fun m hm => ?_, nofun⟩
      cases hm
      have hn := unzstd_inread hok
      refine ⟨hn, fun hsilent => ?_⟩
      obtain ⟨r, hret, hbad, -⟩ := unzstd_verdict 0 hd (w := w)
        (fun m hm => (Option.some.inj (hm.symm.trans hlen)).trans hn)
      obtain ⟨out, rfl⟩ := hbad (.inr hsilent)
      cases hok.unique hret
    · intro h
      obtain ⟨hn, hsilent⟩ := h.1 n rfl
      obtain ⟨r, hret, -, hgood⟩ := unzstd_verdict 0 hd (w := w)
        (fun m hm => (Option.some.inj (hm.symm.trans hlen)).trans hn)
      have hnot : ¬(rejects w ∨ SilentTwice d w) := by
        rintro (hrej | hs)
        · cases hlen.symm.trans (hd.rejects_length? hrej)
        · exact hsilent hs
      obtain ⟨out, rfl, hout⟩ := hgood hnot
      rwa [hout (by rw [hlen]; exact nofun), ← hn] at hret

end

end MakeInitrd.Initrd
