import MakeInitrd.Lib.CMem
import MakeInitrd.Lib.Lts

/-!
# Copying a regular file

`install_file` copies with `copy_file_range`, falls back to `sendfile` and then to `read` and
`write` when the kernel says that a method is not supported, and remembers that for the files after
it. A fallback starts again at the beginning of both files. Up to the position of the destination it
holds what the source holds (`Copy.Inv`), whatever the calls answered. A copy comes to its end, and
then the destination is the source (`copying_ends`).
-/

namespace MakeInitrd.Put

open CMem List

/-- `use_copy_file_range` and `use_sendfile` -/
structure Methods where
  copyFileRange : Bool
  sendfile : Bool
deriving DecidableEq

/-- The three loops. -/
inductive Method where
  | copyFileRange
  | sendfile
  | readWrite
deriving DecidableEq

/-- A copy under way: the positions of `sfd` and `dfd`, what has been read and not yet written, and
`len`. -/
structure Copy where
  method : Method
  rpos : Nat
  wpos : Nat
  buf : Bytes
  len : Nat
deriving DecidableEq

inductive Answer where
  | transferred (k : Nat)
  | unsupported
deriving DecidableEq

/-- `BUFSIZ` -/
def bufsiz : Nat := 8192

def Copy.start (method : Method) (size : Nat) : Copy :=
  ⟨method, 0, 0, [], size⟩

/-- From the label `fallback_sendfile` on. -/
def fallbackSendfile (m : Methods) (size : Nat) : Copy :=
  .start (if m.sendfile then .sendfile else .readWrite) size

/-- The first loop that is entered. -/
def startCopy (m : Methods) (size : Nat) : Copy :=
  if m.copyFileRange then .start .copyFileRange size else fallbackSendfile m size

/-- What `write` makes of a content: a gap before the position is filled with zeros. -/
def writeAt (dst : Bytes) (pos : Nat) (data : Bytes) : Bytes :=
  dst.take pos ++ List.replicate (pos - dst.length) 0 ++ data ++ dst.drop (pos + data.length)

namespace Copy

variable (c : Copy) (src dst : Bytes)

/-- The round of a loop whose call moves `k` bytes from one file to the other. -/
def transfer (k : Nat) : Option (Bytes × Option Copy) :=
  if k ≤ c.len ∧ k ≤ src.length - c.rpos ∧ (k = 0 → c.len = 0 ∨ src.length ≤ c.rpos) then
    let c' := { c with
      rpos := c.rpos + k
      wpos := c.wpos + k
      len := c.len - k }
    some (writeAt dst c.wpos ((src.drop c.rpos).take k), if 0 < c'.len ∧ 0 < k then
      some c' else none)
  else none

/-- `read` of `k` bytes; there are none at the end of the file. -/
def read (k : Nat) : Option (Option Copy) :=
  if k ≤ bufsiz ∧ k ≤ src.length - c.rpos ∧ (k = 0 → src.length ≤ c.rpos) then
    if k = 0 then some none
    else some (some { c with
      rpos := c.rpos + k
      buf := (src.drop c.rpos).take k
      len := c.len - k })
  else none

/-- `write` of `k` bytes; with the last of them a round ends. -/
def write (k : Nat) : Option (Bytes × Option Copy) :=
  if 0 < k ∧ k ≤ c.buf.length then
    let c' := { c with
      wpos := c.wpos + k
      buf := c.buf.drop k }
    some (writeAt dst c.wpos (c.buf.take k), if c'.buf = [] ∧ c'.len = 0 then none else some c')
  else none

/-- The next call, with the content of the destination after it; without a copy after it the label
`end` is reached. -/
def step (size : Nat) (m : Methods) : Answer → Option (Methods × Bytes × Option Copy)
  | .unsupported =>
    match c.method with
    | .copyFileRange =>
      some ({ m with copyFileRange := false }, dst, some (fallbackSendfile m size))
    | .sendfile => some ({ m with sendfile := false }, dst, some (.start .readWrite size))
    | .readWrite => none
  | .transferred k =>
    match c.method with
    | .readWrite =>
      if c.buf = [] then (c.read src k).map fun c' => (m, dst, c')
      else (c.write dst k).map fun r => (m, r)
    | _ => (c.transfer src dst k).map fun r => (m, r)

end Copy

/-! ## What has been copied -/

/-- The source up to `wpos` has been copied; what was read behind it waits in `buf`. -/
structure Copy.Inv (src dst : Bytes) (c : Copy) : Prop where
  rpos_le : c.rpos ≤ src.length
  len : c.len = src.length - c.rpos
  read : c.wpos + c.buf.length = c.rpos
  buf : c.buf = (src.drop c.wpos).take c.buf.length
  written : dst.take c.wpos = src.take c.wpos
  wpos_le : c.wpos ≤ dst.length
  length_le : dst.length ≤ src.length
  unbuffered : c.method ≠ .readWrite → c.buf = []

section
variable {c c' : Copy} {src dst dst' : Bytes} {k : Nat} {m m' : Methods}

theorem Copy.inv_start (method : Method) (h : dst.length ≤ src.length) :
    (Copy.start method src.length).Inv src dst where
  rpos_le := Nat.zero_le _
  len := rfl
  read := rfl
  buf := rfl
  written := rfl
  wpos_le := Nat.zero_le _
  length_le := h
  unbuffered _ := rfl

theorem inv_fallbackSendfile (h : dst.length ≤ src.length) :
    (fallbackSendfile m src.length).Inv src dst :=
  Copy.inv_start _ h

theorem inv_startCopy (h : dst.length ≤ src.length) : (startCopy m src.length).Inv src dst := by
  unfold startCopy
  split
  · exact Copy.inv_start _ h
  · exact inv_fallbackSendfile h

theorem writeAt_eq {pos : Nat} (hpos : pos ≤ dst.length) (data : Bytes) :
    writeAt dst pos data = dst.take pos ++ data ++ dst.drop (pos + data.length) := by
  unfold writeAt
  rw [Nat.sub_eq_zero_of_le hpos, replicate_zero, append_nil]

theorem length_writeAt {pos : Nat} (hpos : pos ≤ dst.length) (data : Bytes) :
    (writeAt dst pos data).length = max dst.length (pos + data.length) := by
  rw [writeAt_eq hpos]
  simp only [length_append, length_take, length_drop]
  omega

theorem take_writeAt {pos : Nat} (hpos : pos ≤ dst.length) (hwritten : dst.take pos = src.take pos)
    (hk : pos + k ≤ src.length) :
    (writeAt dst pos ((src.drop pos).take k)).take (pos + k) = src.take (pos + k) := by
  have hlength : ((src.drop pos).take k).length = k := by
    rw [length_take, length_drop]
    omega
  rw [writeAt_eq hpos, take_append_of_le_length, take_of_length_le, hwritten, take_add]
  · rw [length_append, hlength, length_take]
    omega
  · rw [length_append, hlength, length_take]
    omega

theorem Copy.Inv.wrote (h : c.Inv src dst) (hk : c.wpos + k ≤ src.length) :
    let dst' := writeAt dst c.wpos ((src.drop c.wpos).take k)
    dst'.take (c.wpos + k) = src.take (c.wpos + k) ∧ c.wpos + k ≤ dst'.length ∧ dst'.length ≤
      src.length := by
  have hle := h.length_le
  refine ⟨take_writeAt h.wpos_le h.written hk, ?_⟩
  rw [length_writeAt h.wpos_le, length_take, length_drop]
  omega

theorem Copy.Inv.complete {n : Nat} (hwritten : dst.take n = src.take n) (hn : src.length ≤ n)
    (hle : dst.length ≤ src.length) : dst = src := by
  rwa [take_of_length_le (hle.trans hn), take_of_length_le hn] at hwritten

/-- A call of `copy_file_range` or `sendfile` -/
theorem Copy.Inv.transfer {r : Option Copy} (h : c.Inv src dst) (hbuf : c.buf = [])
    (hstep : c.transfer src dst k = some (dst', r)) :
    (∀ c', r = some c' → c'.Inv src dst') ∧ (r = none → dst' = src) := by
  unfold Copy.transfer at hstep
  split at hstep
  · next hk =>
    obtain ⟨hlen, hsrc, hzero⟩ := hk
    cases hstep
    have hpos : c.wpos = c.rpos := by
      rw [← h.read, hbuf, length_nil, Nat.add_zero]
    have hrpos := h.rpos_le
    have hclen := h.len
    obtain ⟨hwritten, hwpos, hle⟩ := h.wrote (k := k) (by omega)
    rw [← hpos]
    refine ⟨fun c' hc' => ?_, fun hr => ?_⟩
    · split at hc'
      · cases hc'
        exact {
          rpos_le := show c.wpos + k ≤ _ by omega
          len := show c.len - k = src.length - (c.wpos + k) by omega
          read := by rw [hbuf]; rfl
          buf := by rw [hbuf]; rfl
          written := hwritten
          wpos_le := hwpos
          length_le := hle
          unbuffered := fun _ => hbuf }
      · cases hc'
    · split at hr
      · cases hr
      · next hend =>
        refine Copy.Inv.complete hwritten ?_ hle
        change ¬(0 < c.len - k ∧ 0 < k) at hend
        omega
  · cases hstep

/-- A call of `read` -/
theorem Copy.Inv.readBytes {r : Option Copy} (h : c.Inv src dst) (hbuf : c.buf = [])
    (hmethod : c.method = .readWrite) (hstep : c.read src k = some r) :
    (∀ c', r = some c' → c'.Inv src dst) ∧ (r = none → dst = src) := by
  have hpos : c.wpos = c.rpos := by
    rw [← h.read, hbuf, length_nil, Nat.add_zero]
  have hrpos := h.rpos_le
  have hclen := h.len
  unfold Copy.read at hstep
  split at hstep
  · next hk =>
    obtain ⟨-, hsrc, hzero⟩ := hk
    split at hstep
    · next hk0 =>
      cases hstep
      exact ⟨nofun, fun _ => Copy.Inv.complete h.written (hpos ▸ hzero hk0) h.length_le⟩
    · cases hstep
      refine ⟨?_, nofun⟩
      rintro c' ⟨⟩
      have hlength : ((src.drop c.rpos).take k).length = k := by
        rw [length_take, length_drop]
        omega
      exact {
        rpos_le := show c.rpos + k ≤ _ by omega
        len := show c.len - k = src.length - (c.rpos + k) by omega
        read := show c.wpos + _ = c.rpos + k by rw [hlength, hpos]
        buf := show _ = (src.drop c.wpos).take _ by rw [hlength, hpos]
        written := h.written
        wpos_le := h.wpos_le
        length_le := h.length_le
        unbuffered := fun hne => absurd hmethod hne }
  · cases hstep

/-- A call of `write` -/
theorem Copy.Inv.writeBytes {r : Option Copy} (h : c.Inv src dst) (hmethod : c.method = .readWrite)
    (hstep : c.write dst k = some (dst', r)) :
    (∀ c', r = some c' → c'.Inv src dst') ∧ (r = none → dst' = src) := by
  have hread := h.read
  have hrpos := h.rpos_le
  have hclen := h.len
  unfold Copy.write at hstep
  split at hstep
  · next hk =>
    cases hstep
    have htake : c.buf.take k = (src.drop c.wpos).take k := by
      rw [h.buf, take_take, min_eq_left (h.buf ▸ hk.2)]
    obtain ⟨hwritten, hwpos, hle⟩ := h.wrote (k := k) (by omega)
    rw [htake]
    refine ⟨fun c' hc' => ?_, fun hr => ?_⟩
    · split at hc'
      · cases hc'
      · cases hc'
        exact {
          rpos_le := hrpos
          len := hclen
          read := by
            show c.wpos + k + (c.buf.drop k).length = c.rpos
            rw [length_drop]
            omega
          buf := by
            show c.buf.drop k = (src.drop (c.wpos + k)).take (c.buf.drop k).length
            rw [length_drop, ← drop_drop, ← drop_take, ← h.buf]
          written := hwritten
          wpos_le := hwpos
          length_le := hle
          unbuffered := fun hne => absurd hmethod hne }
    · split at hr
      · next hend =>
        have hnil : c.buf.drop k = [] := hend.1
        have hlen : c.len = 0 := hend.2
        have hlength := congrArg length hnil
        rw [length_drop, length_nil] at hlength
        refine Copy.Inv.complete hwritten ?_ hle
        omega
      · cases hr
  · cases hstep

/-- Every answer keeps what has been copied, and at the label `end` the destination is the source.
-/
theorem Copy.Inv.step {a : Answer} {r : Option Copy} (h : c.Inv src dst)
    (hstep : c.step src dst src.length m a = some (m', dst', r)) :
    (∀ c', r = some c' → c'.Inv src dst') ∧ (r = none → dst' = src) := by
  unfold Copy.step at hstep
  cases a with
  | unsupported =>
    have hstart {m₁ : Methods} {c₁ : Copy} (hc₁ : c₁.Inv src dst)
        (heq : some (m₁, dst, some c₁) = some (m', dst', r)) :
        (∀ c', r = some c' → c'.Inv src dst') ∧ (r = none → dst' = src) := by
      cases heq
      refine ⟨?_, nofun⟩
      rintro c' ⟨⟩
      exact hc₁
    cases hm : c.method <;> simp only [hm] at hstep
    case copyFileRange => exact hstart (inv_fallbackSendfile h.length_le) hstep
    case sendfile => exact hstart (Copy.inv_start _ h.length_le) hstep
    case readWrite => cases hstep
  | transferred k =>
    have hkernel (hne : c.method ≠ .readWrite)
        (heq : ((c.transfer src dst k).map fun r => (m, r)) = some (m', dst', r)) :
        (∀ c', r = some c' → c'.Inv src dst') ∧ (r = none → dst' = src) := by
      obtain ⟨r', hr', hr⟩ := Option.map_eq_some_iff.1 heq
      cases hr
      exact h.transfer (h.unbuffered hne) hr'
    cases hm : c.method <;> simp only [hm] at hstep
    case copyFileRange => exact hkernel (hm ▸ nofun) hstep
    case sendfile => exact hkernel (hm ▸ nofun) hstep
    case readWrite =>
      split at hstep
      · next hbuf =>
        obtain ⟨r', hr', hr⟩ := Option.map_eq_some_iff.1 hstep
        cases hr
        exact h.readBytes hbuf hm hr'
      · obtain ⟨r', hr', hr⟩ := Option.map_eq_some_iff.1 hstep
        cases hr
        exact h.writeBytes hm hr'

/-! ## The end of a copy -/

/-- The copy has not more to go than the size of the file says, and does not start a round of its
loop without need. -/
structure Copy.Within (size : Nat) (c : Copy) : Prop where
  len_le : c.len ≤ size
  buf_le : c.buf.length ≤ bufsiz
  started : c.buf = [] → 0 < c.len ∨ c.rpos = 0

/-- How many methods can still be fallen back to. -/
def Method.fallbacks : Method → Nat
  | .copyFileRange => 2
  | .sendfile => 1
  | .readWrite => 0

/-- What is left to do with the method: a read takes from `len` what it adds to `buf`. The first one
may find `len` to be 0, since the loop tests it after a round. -/
def Copy.left (c : Copy) : Nat :=
  (bufsiz + 2) * c.len + c.buf.length + if c.rpos = 0 then bufsiz + 1 else 0

/-- What is left to do with this method or with those after it. -/
def Copy.rank (size : Nat) (c : Copy) : Nat :=
  c.method.fallbacks * ((bufsiz + 2) * (size + 1)) + c.left

section
variable {size : Nat} {method : Method}

theorem Copy.within_start : (Copy.start method size).Within size where
  len_le := le_rfl
  buf_le := Nat.zero_le _
  started _ := .inr rfl

theorem within_startCopy : (startCopy m size).Within size := by
  unfold startCopy
  split
  · exact Copy.within_start
  · exact Copy.within_start

theorem Copy.rank_start_lt :
    (Copy.start method size).rank size < (method.fallbacks + 1) * ((bufsiz + 2) * (size + 1)) := by
  have hleft : (Copy.start method size).left = (bufsiz + 2) * size + 0 + (bufsiz + 1) := rfl
  show method.fallbacks * _ + (Copy.start method size).left < _
  have hsize := Nat.mul_add_one (bufsiz + 2) size
  rw [hleft, Nat.add_one_mul method.fallbacks]
  omega

theorem Method.fallbacks_le (method : Method) : method.fallbacks ≤ 2 := by
  cases method <;> decide

theorem rank_startCopy_lt : (startCopy m size).rank size < 3 * ((bufsiz + 2) * (size + 1)) := by
  have hstart (method : Method) :
      (Copy.start method size).rank size < 3 * ((bufsiz + 2) * (size + 1)) :=
    Copy.rank_start_lt.trans_le (Nat.mul_le_mul_right _ (Nat.succ_le_succ method.fallbacks_le))
  unfold startCopy
  split
  · exact hstart _
  · exact hstart _

theorem Copy.Within.fallback (hless : method.fallbacks < c.method.fallbacks) :
    (Copy.start method size).Within size ∧ (Copy.start method size).rank size < c.rank size := by
  refine ⟨Copy.within_start, Copy.rank_start_lt.trans_le ?_⟩
  exact (Nat.mul_le_mul_right _ hless).trans (Nat.le_add_right _ _)

theorem Copy.Within.transfer (h : c.Within size)
    (hstep : c.transfer src dst k = some (dst', some c')) :
    c'.Within size ∧ c'.rank size < c.rank size := by
  unfold Copy.transfer at hstep
  split at hstep
  · obtain ⟨-, hc'⟩ := Prod.mk.inj (Option.some.inj hstep)
    split at hc'
    · next hmore =>
      cases hc'
      obtain ⟨hlen, hk⟩ : 0 < c.len - k ∧ 0 < k := hmore
      have hle := h.len_le
      refine ⟨⟨show c.len - k ≤ size by omega, h.buf_le, fun _ => .inl hlen⟩, ?_⟩
      refine Nat.add_lt_add_left ?_ _
      have hmul : (bufsiz + 2) * (c.len - k) < (bufsiz + 2) * c.len :=
        Nat.mul_lt_mul_of_pos_left (by omega) (Nat.succ_pos _)
      show (bufsiz + 2) * (c.len - k) + c.buf.length + (if c.rpos + k = 0 then _ else _) < _
      rw [if_neg (by omega)]
      unfold Copy.left
      omega
    · cases hc'
  · cases hstep

theorem Copy.Within.read (h : c.Within size) (hbuf : c.buf = [])
    (hstep : c.read src k = some (some c')) : c'.Within size ∧ c'.rank size < c.rank size := by
  unfold Copy.read at hstep
  split at hstep
  · next hk =>
    obtain ⟨hk, hsrc, -⟩ := hk
    split at hstep
    · cases hstep
    · next hk0 =>
      cases hstep
      have hle := h.len_le
      have hlength : ((src.drop c.rpos).take k).length = k := by
        rw [length_take, length_drop]
        omega
      refine ⟨⟨show c.len - k ≤ size by omega, hlength.trans_le hk, fun hnil => ?_⟩, ?_⟩
      · exact absurd (hlength.symm.trans (congrArg length hnil)) hk0
      · refine Nat.add_lt_add_left ?_ _
        show (bufsiz + 2) * (c.len - k) + ((src.drop c.rpos).take k).length +
          (if c.rpos + k = 0 then _ else _) < _
        rw [if_neg (by omega), hlength]
        unfold Copy.left
        rw [hbuf]
        rcases h.started hbuf with hpos | hrpos
        · have hmul : (bufsiz + 2) * (c.len - k + 1) ≤ (bufsiz + 2) * c.len :=
            Nat.mul_le_mul_left _ (by omega)
          rw [Nat.mul_add_one] at hmul
          omega
        · have hmul : (bufsiz + 2) * (c.len - k) ≤ (bufsiz + 2) * c.len :=
            Nat.mul_le_mul_left _ (Nat.sub_le _ _)
          rw [if_pos hrpos]
          omega
  · cases hstep

theorem Copy.Within.write (h : c.Within size) (hstep : c.write dst k = some (dst', some c')) :
    c'.Within size ∧ c'.rank size < c.rank size := by
  unfold Copy.write at hstep
  split at hstep
  · next hk =>
    obtain ⟨-, hc'⟩ := Prod.mk.inj (Option.some.inj hstep)
    split at hc'
    · cases hc'
    · next hmore =>
      cases hc'
      have hlength : (c.buf.drop k).length = c.buf.length - k := length_drop
      refine ⟨⟨h.len_le, ?_, fun hnil => .inl ?_⟩, ?_⟩
      · exact hlength.trans_le ((Nat.sub_le _ _).trans h.buf_le)
      · exact Nat.pos_of_ne_zero fun hlen => hmore ⟨hnil, hlen⟩
      · refine Nat.add_lt_add_left ?_ _
        show (bufsiz + 2) * c.len + (c.buf.drop k).length + (if c.rpos = 0 then _ else _) < _
        unfold Copy.left
        omega
  · cases hstep

/-- Every step of a copy makes its rank smaller. -/
theorem Copy.Within.step {a : Answer} (h : c.Within size)
    (hstep : c.step src dst size m a = some (m', dst', some c')) :
    c'.Within size ∧ c'.rank size < c.rank size := by
  unfold Copy.step at hstep
  cases a with
  | unsupported =>
    cases hm : c.method <;> simp only [hm] at hstep
    case copyFileRange =>
      cases hstep
      refine Copy.Within.fallback ?_
      rw [hm]
      split <;> decide
    case sendfile =>
      cases hstep
      refine Copy.Within.fallback ?_
      rw [hm]
      decide
    case readWrite => cases hstep
  | transferred k =>
    have hkernel (heq : ((c.transfer src dst k).map fun r => (m, r)) = some (m', dst', some c')) :
        c'.Within size ∧ c'.rank size < c.rank size := by
      obtain ⟨r', hr', hr⟩ := Option.map_eq_some_iff.1 heq
      cases hr
      exact h.transfer hr'
    cases hm : c.method <;> simp only [hm] at hstep
    case copyFileRange => exact hkernel hstep
    case sendfile => exact hkernel hstep
    case readWrite =>
      split at hstep
      · next hbuf =>
        obtain ⟨r', hr', hr⟩ := Option.map_eq_some_iff.1 hstep
        cases hr
        exact h.read hbuf hr'
      · obtain ⟨r', hr', hr⟩ := Option.map_eq_some_iff.1 hstep
        cases hr
        exact h.write hr'

/-- A copy never gets stuck. -/
theorem Copy.exists_step (c : Copy) (src dst : Bytes) (size : Nat) (m : Methods) :
    ∃ a r, c.step src dst size m a = some r := by
  cases hm : c.method with
  | copyFileRange | sendfile =>
    refine ⟨.unsupported, ?_⟩
    simp only [Copy.step, hm]
    exact ⟨_, rfl⟩
  | readWrite =>
    by_cases hbuf : c.buf = []
    · have hk : min bufsiz (src.length - c.rpos) = 0 → src.length ≤ c.rpos := by
        unfold bufsiz
        omega
      refine ⟨.transferred (min bufsiz (src.length - c.rpos)), ?_⟩
      simp only [Copy.step, hm, if_pos hbuf, Copy.read,
        if_pos (And.intro (min_le_left _ _) (And.intro (min_le_right _ _) hk))]
      split <;> exact ⟨_, rfl⟩
    · refine ⟨.transferred c.buf.length, ?_⟩
      simp only [Copy.step, hm, if_neg hbuf, Copy.write,
        if_pos (And.intro (length_pos_iff.2 hbuf) le_rfl)]
      exact ⟨_, rfl⟩

end

/-! ## Runs of one copy -/

/-- The copying of a file: the content of the destination, and the copy under way until the label
`end` is reached. The label of a step says what the call answers, and what `use_copy_file_range` and
`use_sendfile` are by then, since other threads may change them. -/
def copying (src dst : Bytes) : Lts (Bytes × Option Copy) (Methods × Answer) where
  init s := ∃ m, s = (dst, some (startCopy m src.length))
  step s l := s.2.bind fun c => (c.step src s.1 src.length l.1 l.2).map Prod.snd

def Copied (src : Bytes) (s : Bytes × Option Copy) : Prop :=
  (∀ c, s.2 = some c → c.Inv src s.1 ∧ c.Within src.length) ∧ (s.2 = none → s.1 = src)

section
variable {s s' : Bytes × Option Copy} {l : Methods × Answer}

theorem copied_startCopy (h : dst.length ≤ src.length) :
    Copied src (dst, some (startCopy m src.length)) := by
  refine ⟨?_, nofun⟩
  rintro c ⟨⟩
  exact ⟨inv_startCopy h, within_startCopy⟩

/-- What is left to do of a copy; after it nothing is. -/
def copyRank (size : Nat) : Option Copy → Nat
  | none => 0
  | some c => c.rank size + 1

theorem Copied.step (h : Copied src s) (hstep : (copying src dst).step s l = some s') :
    Copied src s' ∧ copyRank src.length s'.2 < copyRank src.length s.2 := by
  obtain ⟨c, hc, hstep⟩ := Option.bind_eq_some_iff.1 hstep
  obtain ⟨⟨m', dst', r⟩, hcopy, rfl⟩ := Option.map_eq_some_iff.1 hstep
  obtain ⟨hinv, hwithin⟩ := h.1 c hc
  obtain ⟨hnext, hend⟩ := hinv.step hcopy
  rw [hc]
  cases r with
  | none => exact ⟨⟨nofun, hend⟩, Nat.succ_pos _⟩
  | some c' =>
    obtain ⟨hwithin', hlt⟩ := hwithin.step hcopy
    refine ⟨⟨?_, nofun⟩, Nat.succ_lt_succ hlt⟩
    rintro c ⟨⟩
    exact ⟨hnext c' rfl, hwithin'⟩

/-- Whatever the calls answer, the copy comes to its end, and then the destination is the source. It
is empty after `creat`, and `posix_fallocate` does not make it longer than the source. -/
theorem copying_ends (src dst : Bytes) (m : Methods) (h : dst.length ≤ src.length) :
    (copying src dst).Ends (fun _ _ => True) (fun s => s.2 = none) (fun s => s.1 = src)
      (dst, some (startCopy m src.length)) := by
  have hround (s : Bytes × Option Copy) (l : Methods × Answer) (s' : Bytes × Option Copy)
      (hs : Copied src s) (_ : True) (hstep : (copying src dst).step s l = some s') :
      Copied src s' ∧ copyRank src.length s'.2 < copyRank src.length s.2 := hs.step hstep
  refine Lts.Terminates.ends (Lts.terminates_of_measure (fun s => copyRank src.length s.2) hround
    (copied_startCopy h))
    (fun s l s' hs hok hstep => (hround s l s' hs hok hstep).1) (fun s hs => hs.2)
    (fun s _ hover => ?_) (copied_startCopy h)
  obtain ⟨c, hc⟩ := Option.ne_none_iff_exists'.1 hover
  obtain ⟨a, r, hcopy⟩ := c.exists_step src s.1 src.length m
  refine ⟨(m, a), r.2, trivial, ?_⟩
  show (s.2.bind fun c => (c.step src s.1 src.length m a).map Prod.snd) = _
  rw [hc, Option.bind_some, hcopy, Option.map_some]

/-- Both fallbacks in the middle of a file: the run is possible, and the destination is the source.
-/
theorem copying_ends_fallbacks : ((copying [97, 98, 99] [0, 0, 0]).exec (fun _ _ => true)
        ([0, 0, 0], some (startCopy ⟨true, true⟩ 3))
        [(⟨true, true⟩, .transferred 1), (⟨true, true⟩, .unsupported),
          (⟨false, true⟩, .transferred 2),
          (⟨false, true⟩, .unsupported), (⟨false, false⟩, .transferred 2),
          (⟨false, false⟩, .transferred 1), (⟨false, false⟩, .transferred 1),
          (⟨false, false⟩, .transferred 1), (⟨false, false⟩, .transferred 1)]) =
      some ([97, 98, 99], none) ∧
    (copying [97, 98, 99] [0, 0, 0]).Ends (fun _ _ => True) (fun s => s.2 = none)
      (fun s => s.1 = [97, 98, 99]) ([0, 0, 0], some (startCopy ⟨true, true⟩ 3)) :=
  ⟨by decide +kernel, copying_ends [97, 98, 99] [0, 0, 0] ⟨true, true⟩ (by decide)⟩

end

end

end MakeInitrd.Put
