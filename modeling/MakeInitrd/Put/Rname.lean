import Mathlib.Data.List.DropRight
import MakeInitrd.Lib.Words
import MakeInitrd.Put.Resolution

/-!
# The buffers of `enqueue_canonicalized_path`

The loop as it runs on strings. `rname` grows and is cut back, and what is still to be resolved is
the string at `start`: first in `name`, and after a symlink in `extra_buffer`, where the rest of the
path is moved behind the target while it may lie in that buffer itself.
-/

namespace MakeInitrd.Put.Rname

open Posix CMem Loop List

/-- `PATH_MAX`, the longest string with its NUL that the kernel takes as a path. -/
def pathMax : Nat := 4096

/-- `dir_suffix` -/
def dirSuffix : Bytes := Words.text "/./"

/-- `sizeof(rname)` -/
def rnameSize : Nat := pathMax + (dirSuffix.length + 1) + 1

/-- `sizeof(extra_buffer)` -/
def extraSize : Nat := pathMax + 1

/-- `IS_DIR_SEPARATOR` -/
def isDirSeparator (c : UInt8) : Bool := c = 47

/-- `IS_ABSOLUTE_FILE_NAME` -/
def isAbsoluteFileName (f : Bytes) : Bool := f.head? = some 47

/-- After a slash and a dot: the end of the string, or another dot that is a whole `..`. -/
def dotsEnd : Bytes → Bool
  | [] => true
  | [c] => c = 46
  | c :: d :: _ => c = 46 && isDirSeparator d

mutual

/-- `suffix_requires_dir_check` -/
def suffixRequiresDirCheck : Bytes → Bool
  | [] => false
  | c :: s => isDirSeparator c && afterSeparator s

/-- The body of its loop, after the first slash. -/
def afterSeparator : Bytes → Bool
  | [] => true
  | c :: s =>
    if isDirSeparator c then afterSeparator s
    else if c = 46 then dotsEnd s || suffixRequiresDirCheck s
    else false

end

/-- `errno` after a call that takes a path. -/
inductive Failure where
  | errno (e : Errno)
  /-- `ENAMETOOLONG` -/
  | nameTooLong
deriving DecidableEq

/-- `readlink(rname, buf, sizeof(link_buffer) - 1)`, with what it leaves in the buffer. -/
def readlink (world : World) (rname : Bytes) : Except Failure Bytes :=
  if pathMax ≤ rname.length then .error .nameTooLong
  else
    match world.fs.slot world.cwd (cut rname) with
    | .error e => .error (.errno e)
    | .ok l =>
      match world.fs.body? l with
      | some (.link t) => .ok (([47].intercalate t).take pathMax)
      | some _ => .error (.errno .inval)
      | none => .error (.errno .noent)

/-- `dir_check` -/
def dirCheck (world : World) (dir : Bytes) : Bool :=
  (dir ++ dirSuffix).length < pathMax &&
    match world.fs.resolve world.cwd (cut (dir ++ dirSuffix)) with
    | .ok _ => true
    | .error _ => false

/-- The path of a directory as `getcwd` gives it. -/
def locText (l : Loc) : Bytes :=
  if l = [] then [47] else slashed l

/-- `getcwd(rname, sizeof(rname))` -/
def getcwd (world : World) : Option Bytes :=
  if (locText world.cwd).length < rnameSize then some (locText world.cwd) else none

structure State where
  /-- `rname` up to `dest` -/
  rname : Bytes
  /-- `end_in_extra_buffer` -/
  endInExtraBuffer : Bool
  extraBuffer : Bytes
  /-- where `start` is in `name` or in `extra_buffer` -/
  start : Nat
  numLinks : Nat
  work : Work

inductive Outcome where
  | exit
  | returned (w : Work)

/-- `if (dest > rname + 1) for (--dest; dest > rname && !IS_DIR_SEPARATOR(dest[-1]); --dest)` -/
def backUp (rname : Bytes) : Bytes :=
  if 1 < rname.length then rname.dropLast.rdropWhile fun c => !isDirSeparator c else rname

/-- `memmove` or `memcpy` of bytes to a position of a buffer. -/
def store (mem : Bytes) (i : Nat) (bs : Bytes) : Bytes :=
  mem.take i ++ bs ++ mem.drop (i + bs.length)

/-- The C string at a position of a buffer. -/
def cstr (mem : Bytes) (i : Nat) : Bytes :=
  (mem.drop i).takeWhile (· ≠ 0)

/-- The next component of what is to be resolved. -/
def component (s : Bytes) : Bytes :=
  (s.dropWhile isDirSeparator).takeWhile fun c => !isDirSeparator c

/-- What follows it. -/
def after (s : Bytes) : Bytes :=
  (s.dropWhile isDirSeparator).dropWhile fun c => !isDirSeparator c

section

variable (world : World) (name : Bytes) (addRecursively : Bool)

/-- The buffer that `start` and `end` point into. -/
def State.buffer (st : State) : Bytes :=
  if st.endInExtraBuffer then st.extraBuffer else name ++ [0]

/-- The string at `start`. -/
def State.pending (st : State) : Bytes :=
  cstr (st.buffer name) st.start

/-- Where `end` is. -/
def State.stop (st : State) : Nat :=
  st.start + ((st.pending name).length - (after (st.pending name)).length)

/-- The end of the function after the loop. -/
def finish (st : State) : Outcome :=
  let rname :=
    if 1 < st.rname.length ∧ st.rname.getLast? = some 47 then st.rname.dropLast else st.rname
  .returned (st.work.enqueueItem world.env (cut rname) (.setRecursive addRecursively))

/-- `rname` with one more component. -/
def extend (rname comp : Bytes) : Bytes :=
  (if rname.getLast? = some 47 then rname else rname ++ [47]) ++ comp

/-- After a symlink that `rname` names, with the target `buf`: the rest of the path is moved behind
the target. -/
def State.linked (st : State) (rname buf : Bytes) : State where
  rname := if isAbsoluteFileName buf then [47] else backUp rname
  endInExtraBuffer := true
  extraBuffer := store (store st.extraBuffer buf.length
    (((st.buffer name).drop (st.stop name)).take ((after (st.pending name)).length + 1))) 0 buf
  start := 0
  numLinks := st.numLinks + 1
  work := st.work.enqueueItem world.env (cut rname) id

def followLink (st : State) (rname buf : Bytes) : Next State Outcome :=
  if maxSymlinks < st.numLinks + 1 then .done .exit
  else if extraSize ≤ (after (st.pending name)).length + buf.length then .done .exit
  else .again (st.linked world name rname buf)

def round (st : State) : Next State Outcome :=
  let s := st.pending name
  if s = [] then .done (finish world addRecursively st)
  else if component s = [] then .done (finish world addRecursively st)
  else if component s = dot then .again { st with start := st.stop name }
  else if component s = dotDot then
    .again { st with rname := backUp st.rname, start := st.stop name }
  else
    let rname := extend st.rname (component s)
    if rnameSize < rname.length + (dirSuffix.length + 1) then .done .exit
    else
      match readlink world rname with
      | .ok buf => followLink world name st rname buf
      | .error e =>
        if (if suffixRequiresDirCheck (after s) then dirCheck world rname
            else e = .errno .inval) then
          .again { st with rname := rname, start := st.stop name }
        else .done .exit

/-- The state before the loop; `none` if the program exits. `extra` is what `extra_buffer` holds. -/
def begin (extra : Bytes) (work : Work) : Option State :=
  if name = [] then none
  else if isAbsoluteFileName name then some ⟨[47], false, extra, 0, 0, work⟩
  else (getcwd world).map fun cwd => ⟨cwd, false, extra, 0, 0, work⟩

/-- `enqueue_canonicalized_path` ends in this way. -/
def EnqueueCanonicalizedPath (extra : Bytes) (work : Work) (out : Outcome) : Prop :=
  match begin world name extra work with
  | none => out = .exit
  | some st => Returns (round world name addRecursively) st out

end

/-! ## Strings and components -/

section

variable {s rest comp rname : Bytes} {l : Loc} {c : Name}

theorem not_isDirSeparator_iff {c : UInt8} : isDirSeparator c = false ↔ c ≠ 47 := by
  rw [isDirSeparator, decide_eq_false_iff_not]

theorem after_head (s : Bytes) : after s = [] ∨ (after s).head? = some 47 := by
  cases h : after s with
  | nil => exact .inl rfl
  | cons c t =>
    have hc := Span.false_of_dropWhile h
    rw [Bool.not_eq_false', isDirSeparator, decide_eq_true_eq] at hc
    exact .inr (congrArg some hc)

theorem component_append_after (s : Bytes) : component s ++ after s = s.dropWhile isDirSeparator :=
  takeWhile_append_dropWhile

theorem split_component (s : Bytes) : s = s.takeWhile isDirSeparator ++ component s ++ after s := by
  rw [append_assoc, component_append_after, takeWhile_append_dropWhile]

theorem length_after_lt (h : component s ≠ []) : (after s).length < s.length := by
  have hlen := congrArg length (split_component s)
  have hpos := length_pos_iff.2 h
  rw [length_append, length_append] at hlen
  omega

theorem not_mem_component (s : Bytes) : 47 ∉ component s := by
  intro h
  cases mem_takeWhile_imp h

theorem skip_cut {α : Type*} {f : Path → α} (hf : ∀ cs, f ([] :: cs) = f cs) (s : Bytes) :
    f (cut s) = f (component s :: (cut (after s)).tail) := by
  induction s with
  | nil => rfl
  | cons c s ih =>
    by_cases hc : c = 47
    · rw [hc, cut_slash, hf, ih]
      rfl
    · have hdrop : (c :: s).dropWhile isDirSeparator = c :: s :=
        dropWhile_cons_of_neg (by rw [not_isDirSeparator_iff.2 hc]; exact Bool.false_ne_true)
      have hcut := cut_append (not_mem_component (c :: s)) (after_head (c :: s))
      rw [component_append_after, hdrop] at hcut
      rw [hcut]

theorem suffixRequiresDirCheck_skip (hc : c = [] ∨ c = dot) (s : Bytes) :
    Put.suffixRequiresDirCheck (c :: cut s) = Put.suffixRequiresDirCheck (cut s) := by
  rw [Put.suffixRequiresDirCheck, if_pos hc, decide_eq_false (cut_ne_nil s), Bool.false_or]

theorem suffixRequiresDirCheck_ordinary (hc : special c = false) (cs : Path) :
    Put.suffixRequiresDirCheck (c :: cs) = false := by
  have ⟨hstay, hup⟩ := special_eq_false_iff.1 hc
  rw [Put.suffixRequiresDirCheck, if_neg hstay, decide_eq_false hup]

theorem dotsEnd_of_ne {c : UInt8} (hc : c ≠ 46) (s : Bytes) : dotsEnd (c :: s) = false := by
  cases s with
  | nil => exact decide_eq_false hc
  | cons d s => rw [dotsEnd, decide_eq_false hc, Bool.false_and]

theorem suffixRequiresDirCheck_of_ne {c : UInt8} (hc : c ≠ 47) (s : Bytes) :
    suffixRequiresDirCheck (c :: s) = false := by
  rw [suffixRequiresDirCheck, not_isDirSeparator_iff.2 hc, Bool.false_and]

/-- The buffer loop asks for a directory where the list of components does. -/
theorem afterSeparator_eq (s : Bytes) : afterSeparator s = Put.suffixRequiresDirCheck (cut s) := by
  -- a slash and a dot are read at once, so the induction is on the length
  induction hn : s.length using Nat.strong_induction_on generalizing s with
  | _ n ih =>
    cases s with
    | nil => rfl
    | cons c s =>
      unfold afterSeparator
      by_cases hc : c = 47
      · rw [hc, cut_slash, suffixRequiresDirCheck_skip (.inl rfl)]
        exact ih _ (by rw [← hn]; exact Nat.lt_succ_self _) s rfl
      rw [not_isDirSeparator_iff.2 hc, if_neg Bool.false_ne_true]
      by_cases hdot : c = 46
      · rw [if_pos hdot, hdot]
        rcases s with - | ⟨d, s⟩
        · rfl
        by_cases hd : d = 47
        · -- `/./`
          rw [hd, dotsEnd_of_ne (by decide), cut_cons (by decide), cut_slash, modifyHead_cons,
            suffixRequiresDirCheck_skip (c := [46]) (.inr rfl), suffixRequiresDirCheck]
          exact ih _ (by rw [← hn]; exact Nat.lt_succ_of_lt (Nat.lt_succ_self _)) s rfl
        rw [suffixRequiresDirCheck_of_ne hd, Bool.or_false]
        rcases s with - | ⟨e, s⟩
        · by_cases hdd : d = 46
          · rw [hdd]
            rfl
          · rw [dotsEnd_of_ne hdd, cut_cons (by decide), cut_cons hd]
            refine (suffixRequiresDirCheck_ordinary ?_ _).symm
            simp [special, dot, dotDot, hdd]
        obtain ⟨w, ws, hcut⟩ := exists_cons_of_ne_nil (cut_ne_nil s)
        by_cases he : e = 47
        · rw [he, cut_cons (by decide), cut_cons hd, cut_slash, modifyHead_cons,
            modifyHead_cons, Put.suffixRequiresDirCheck, if_neg (by simp [dot]), dotsEnd]
          simp [isDirSeparator, dotDot]
        · rw [dotsEnd, not_isDirSeparator_iff.2 he, Bool.and_false,
            cut_cons (by decide), cut_cons hd,
            cut_cons he, hcut]
          exact (suffixRequiresDirCheck_ordinary (by simp [special, dot, dotDot]) _).symm
      · obtain ⟨w, ws, hcut⟩ := exists_cons_of_ne_nil (cut_ne_nil s)
        rw [if_neg hdot, cut_cons hc, hcut]
        refine (suffixRequiresDirCheck_ordinary ?_ _).symm
        simp [special, dot, dotDot, hdot]

theorem suffixRequiresDirCheck_eq (hs : s = [] ∨ s.head? = some 47) :
    suffixRequiresDirCheck s = Put.suffixRequiresDirCheck (cut s).tail := by
  rcases hs with rfl | hs
  · rfl
  · obtain ⟨s, rfl⟩ := head?_eq_some_iff.1 hs
    rw [suffixRequiresDirCheck, cut_slash, tail_cons, afterSeparator_eq]
    rfl

end

/-! ## `rname` -/

/-- A name that can stand in a directory. -/
structure Proper (c : Name) : Prop where
  ordinary : special c = false
  slash : 47 ∉ c
  nul : 0 ∉ c

theorem Proper.ne_nil {c : Name} (h : Proper c) : c ≠ [] := by
  rintro rfl
  cases h.ordinary

/-- `rname` holds a location, perhaps with a slash behind it. -/
def Holds (rname : Bytes) (l : Loc) : Prop :=
  l ≠ [] ∧ rname = slashed l ∨ rname = slashed l ++ [47]

section

variable {rname : Bytes} {l : Loc} {c : Name}

theorem getLast?_slashed (hl : ∀ c ∈ l, Proper c) : (slashed l).getLast? ≠ some 47 := by
  induction l using reverseRecOn with
  | nil => exact nofun
  | append_singleton l c =>
    have hc := hl c (mem_append_right l mem_cons_self)
    have htext : slashed (l ++ [c]) = (slashed l ++ [47]) ++ c := by simp
    rw [htext, getLast?_append_of_ne_nil _ hc.ne_nil]
    exact fun hlast => hc.slash (mem_of_getLast? hlast)

theorem Holds.extend (hl : ∀ c ∈ l, Proper c) (h : Holds rname l) :
    extend rname c = slashed (l ++ [c]) := by
  rcases h with ⟨-, rfl⟩ | rfl
  · rw [Rname.extend, if_neg (getLast?_slashed hl)]
    simp
  · rw [Rname.extend, if_pos getLast?_concat]
    simp

theorem holds_slashed (hl : l ≠ []) : Holds (slashed l) l :=
  .inl ⟨hl, rfl⟩

theorem holds_locText (l : Loc) : Holds (locText l) l := by
  unfold locText
  split
  · next hl => exact .inr (by rw [hl]; rfl)
  · next hl => exact holds_slashed hl

/-- `..` cuts the last component off the buffer. -/
theorem Holds.backUp (hl : ∀ c ∈ l, Proper c) (h : Holds rname l) :
    Holds (backUp rname) l.dropLast := by
  induction l using reverseRecOn with
  | nil =>
    rcases h with ⟨hne, -⟩ | rfl
    · exact absurd rfl hne
    · exact .inr rfl
  | append_singleton l c =>
    have hc := hl c (mem_append_right l mem_cons_self)
    have hstop (w : Bytes) (hw : 47 ∉ w) :
        (slashed l ++ 47 :: w).rdropWhile (fun c => !isDirSeparator c) = slashed l ++ [47] := by
      rw [rdropWhile, reverse_append, reverse_cons, append_assoc, singleton_append,
        Span.dropWhile_stop]
      · simp
      · intro a ha
        rw [Bool.not_eq_true', not_isDirSeparator_iff]
        exact fun h47 => hw (h47 ▸ mem_reverse.1 ha)
      · rfl
    have hne : 1 < rname.length := by
      have := length_pos_iff.2 hc.ne_nil
      rcases h with ⟨-, rfl⟩ | rfl <;> simp <;> omega
    rw [dropLast_concat, Rname.backUp, if_pos hne]
    refine .inr ?_
    rcases h with ⟨-, rfl⟩ | rfl
    · have hdrop : (slashed (l ++ [c])).dropLast = slashed l ++ 47 :: c.dropLast := by
        simp [dropLast_append_of_ne_nil, dropLast_cons_of_ne_nil hc.ne_nil]
      rw [hdrop, hstop _ fun h47 => hc.slash (mem_of_mem_dropLast h47)]
    · rw [dropLast_concat]
      have htext : slashed (l ++ [c]) = slashed l ++ 47 :: c := by simp
      rw [htext, hstop _ hc.slash]

theorem Holds.trim (hl : ∀ c ∈ l, Proper c) (h : Holds rname l) :
    (if 1 < rname.length ∧ rname.getLast? = some 47 then rname.dropLast else rname) =
      locText l := by
  rcases h with ⟨hne, rfl⟩ | rfl
  · rw [if_neg fun hlast => getLast?_slashed hl hlast.2, locText, if_neg hne]
  · cases l with
    | nil => rfl
    | cons c l =>
      rw [if_pos ⟨by simp, getLast?_concat⟩, dropLast_concat, locText, if_neg (cons_ne_nil c l)]

theorem cut_slashed (hl : ∀ c ∈ l, 47 ∉ c) : cut (slashed l) = [] :: l := by
  have h := cut_intercalate (p := [] :: l) (cons_ne_nil _ _) fun w hw => by
    rcases mem_cons.1 hw with rfl | hw
    · exact not_mem_nil
    · exact hl w hw
  rwa [intercalate_cons] at h

theorem cut_locText (hl : ∀ c ∈ l, Proper c) : cut (locText l) = Loc.path l := by
  cases l with
  | nil => rfl
  | cons c l =>
    rw [locText, if_neg (cons_ne_nil c l), cut_slashed fun a ha => (hl a ha).slash, Loc.path]

end

/-! ## The calls -/

section

variable {world : World} {dest : Loc} {c : Name}

theorem proper_concat (hdest : ∀ a ∈ dest, Proper a) (hc : Proper c) :
    ∀ a ∈ dest ++ [c], Proper a := by
  intro a ha
  rcases mem_append.1 ha with ha | ha
  · exact hdest a ha
  · rwa [mem_singleton.1 ha]

theorem path_concat (dest : Loc) (c : Name) : Loc.path (dest ++ [c]) = [] :: (dest ++ [c]) := by
  cases dest <;> rfl

theorem cut_concat (hdest : ∀ a ∈ dest, Proper a) (hc : Proper c) :
    cut (slashed (dest ++ [c])) = Loc.path (dest ++ [c]) := by
  rw [path_concat, cut_slashed fun a ha => (proper_concat hdest hc a ha).slash]

theorem body?_concat_eq_none (hdir : world.fs.body? dest ≠ some .dir) :
    world.fs.body? (dest ++ [c]) = none := by
  by_contra hsome
  exact hdir (world.fs.body?_of_append (cons_ne_nil c []) hsome)

section
variable (hphys : world.fs.Physical dest) (hdest : ∀ a ∈ dest, Proper a) (hc : Proper c)
include hphys hdest hc

/-- `readlink` finds the target of a symlink, and `EINVAL` says that there is another object. -/
theorem readlink_eq (hlen : (slashed (dest ++ [c])).length < pathMax) :
    match world.fs.body? (dest ++ [c]) with
    | some (.link t) =>
      readlink world (slashed (dest ++ [c])) = .ok (([47].intercalate t).take pathMax)
    | b => ∃ e, readlink world (slashed (dest ++ [c])) = .error e ∧ (e = .errno .inval ↔
      b.isSome) := by
  have hslot := Fs.slot_path world.cwd hphys (fun a ha => (hdest a ha).ordinary) hc.ordinary
  unfold readlink
  rw [if_neg (Nat.not_le.2 hlen), cut_concat hdest hc, hslot]
  by_cases hdir : world.fs.body? dest = some .dir
  · rw [if_pos hdir]
    cases hb : world.fs.body? (dest ++ [c]) with
    | none => exact ⟨.errno .noent, by simp only [hb], by simp⟩
    | some b => cases b <;> simp [hb]
  · rw [if_neg hdir, body?_concat_eq_none hdir]
    exact ⟨_, rfl, by simp⟩

/-- The name with `/./` behind it can be resolved for a directory only. -/
theorem dirCheck_eq (hlink : ∀ t, world.fs.body? (dest ++ [c]) ≠ some (.link t))
    (hlen : (slashed (dest ++ [c])).length + dirSuffix.length < pathMax) :
    dirCheck world (slashed (dest ++ [c])) = true ↔ world.fs.body? (dest ++ [c]) = some .dir := by
  have htext : slashed (dest ++ [c]) ++ dirSuffix = slashed (dest ++ [c, dot, []]) := by
    simp [dirSuffix, dot, show Words.text "/./" = [47, 46, 47] from rfl]
  have hcut : cut (slashed (dest ++ [c, dot, []])) = [] :: (dest ++ [c, dot, []]) := by
    refine cut_slashed fun a ha => ?_
    rcases mem_append.1 ha with ha | ha
    · exact (hdest a ha).slash
    · rcases mem_cons.1 ha with rfl | ha
      · exact hc.slash
      · exact (by decide : ∀ a ∈ [dot, []], 47 ∉ a) a ha
  have hres := Fs.resolve_location (q := [c, dot, []]) world.cwd hphys
    (fun a ha => (hdest a ha).ordinary) (append_ne_nil_of_right_ne_nil _ (cons_ne_nil _ _))
  have ⟨hstay, hup⟩ := special_eq_false_iff.1 hc.ordinary
  unfold dirCheck
  rw [length_append, decide_eq_true hlen, Bool.true_and, htext, hcut, hres, walkFrom]
  by_cases hdir : world.fs.body? dest = some .dir
  · rw [if_neg (not_not.2 hdir), if_neg hstay, if_neg hup]
    cases hb : world.fs.body? (dest ++ [c]) with
    | none => simp
    | some b =>
      cases b with
      | link t => exact absurd hb (hlink t)
      | dir => simp [walkFrom, hb]
      | _ => simp [walkFrom, hb]
  · rw [if_pos hdir, body?_concat_eq_none hdir]
    simp

end

end

/-! ## The buffers -/

/-- At a position of a buffer there is a string and then a NUL. -/
def Shows (mem : Bytes) (i : Nat) (s : Bytes) : Prop :=
  0 ∉ s ∧ ∃ t, mem.drop i = s ++ 0 :: t

section

variable {mem s s' buf rest : Bytes} {i : Nat}

theorem shows_of_cstring (h : 0 ∉ s) : Shows (s ++ [0]) 0 s :=
  ⟨h, [], rfl⟩

theorem Shows.cstr (h : Shows mem i s) : cstr mem i = s := by
  obtain ⟨hs, t, ht⟩ := h
  rw [Rname.cstr, ht, Span.takeWhile_stop]
  · exact fun a ha => decide_eq_true fun h0 => hs (h0 ▸ ha)
  · rfl

theorem Shows.add (h : Shows mem i (s ++ s')) : Shows mem (i + s.length) s' := by
  obtain ⟨hs, t, ht⟩ := h
  refine ⟨fun h0 => hs (mem_append_right s h0), t, ?_⟩
  rw [← drop_drop, ht, append_assoc, drop_left]

theorem Shows.take (h : Shows mem i s) : (mem.drop i).take (s.length + 1) = s ++ [0] := by
  obtain ⟨-, t, ht⟩ := h
  rw [ht, append_cons, take_left' (by rw [length_append]; rfl)]

theorem shows_store (hbuf : 0 ∉ buf) (hrest : 0 ∉ rest) (hlen : buf.length ≤ mem.length) :
    Shows (store (store mem buf.length (rest ++ [0])) 0 buf) 0 (buf ++ rest) := by
  refine ⟨fun h0 => (mem_append.1 h0).elim hbuf hrest, ?_⟩
  have htake : (mem.take buf.length).length = buf.length := by
    rw [length_take, Nat.min_eq_left hlen]
  simp only [store, take_zero, nil_append, Nat.zero_add, append_assoc, drop_zero, drop_left' htake,
    singleton_append]
  exact ⟨_, rfl⟩

theorem length_store (h : i + s.length ≤ mem.length) : (store mem i s).length = mem.length := by
  simp only [store, length_append, length_take, length_drop]
  omega

end

/-! ## Paths that fit -/

/-- What `rname` holds is no longer than a path can be, up to the next symlink. -/
def fitsFrom (look : Loc → Option Body) (follow : Loc → Path → Bool) (dest : Loc) : Path → Bool
  | [] => true
  | c :: cs =>
    if c = [] ∨ c = dot then fitsFrom look follow dest cs
    else if c = dotDot then fitsFrom look follow dest.dropLast cs
    else
      (slashed (dest ++ [c])).length < pathMax &&
        match look (dest ++ [c]) with
        | some (.link t) => follow (if isAbsolute t then [] else dest) (t ++ cs)
        | b =>
          (!Put.suffixRequiresDirCheck cs || (slashed (dest ++ [c])).length +
            dirSuffix.length < pathMax) &&
          (!passes b cs || fitsFrom look follow (dest ++ [c]) cs)

/-- After a symlink, what is left to resolve fits `extra_buffer`. -/
def linkFits (look : Loc → Option Body) : Nat → Loc → Path → Bool
  | 0, _, _ => true
  | n + 1, dest, p =>
    ([47].intercalate p).length ≤ pathMax && fitsFrom look (linkFits look n) dest p

/-- The directory that the resolution of a path starts in. -/
def startOf (world : World) (p : Path) : Loc :=
  if isAbsolute p then [] else world.cwd

/-- The path fits the buffers, and so does every string on the way to the object. -/
def Fits (world : World) (name : Bytes) : Prop :=
  (isAbsoluteFileName name = false → (locText world.cwd).length < rnameSize) ∧
    fitsFrom world.fs.body? (linkFits world.fs.body? maxSymlinks)
      (startOf world (cut name)) (cut name)

instance (world : World) (name : Bytes) : Decidable (Fits world name) :=
  inferInstanceAs (Decidable (_ ∧ _))

/-- The names of the working directory are names, and the targets of symlinks are strings. -/
structure Textual (world : World) : Prop where
  cwd : ∀ c ∈ world.cwd, Proper c
  target_ne : ∀ l t, world.fs.body? l = some (.link t) → t ≠ []
  target : ∀ l t, world.fs.body? l = some (.link t) → ∀ c ∈ t, 47 ∉ c ∧ 0 ∉ c

/-! ## The loop -/

section

variable {world : World} {name s : Bytes} {b : Bool} {st : State} {n : Nat} {dest : Loc}

/-- The variables of the function while `n` more symlinks may be traversed, `dest` is reached and
`s` is left to resolve. -/
structure Rel (world : World) (name : Bytes) (st : State) (n : Nat) (dest : Loc) (s : Bytes) :
    Prop where
  rname : Holds st.rname dest
  names : ∀ c ∈ dest, Proper c
  physical : world.fs.Physical dest
  shows : Shows (st.buffer name) st.start s
  extra : st.extraBuffer.length = extraSize
  links : st.numLinks + n = maxSymlinks
  fits : fitsFrom world.fs.body? (linkFits world.fs.body? n) dest (cut s)

/-- What the function does with the result of the resolution. -/
def answer (world : World) (b : Bool) (work : Work) : Option (List Loc × Loc) → Outcome
  | none => .exit
  | some (links, r) =>
    .returned ((work.enqueueItems world.env (links.map Loc.path)).enqueueItem world.env (Loc.path r)
      (.setRecursive b))

theorem canon_eq_canonFrom (look : Loc → Option Body) (n : Nat) :
    ∃ follow, canon look n = canonFrom look follow := by
  cases n <;> exact ⟨_, rfl⟩

theorem canon_cut (look : Loc → Option Body) (n : Nat) (dest : Loc) (s : Bytes) :
    canon look n dest (cut s) = canon look n dest (component s :: (cut (after s)).tail) := by
  obtain ⟨follow, hcanon⟩ := canon_eq_canonFrom look n
  rw [hcanon]
  exact skip_cut (fun cs => canonFrom_skip (.inl rfl) cs) s

theorem Rel.pending (h : Rel world name st n dest s) : st.pending name = s :=
  h.shows.cstr

/-- `end` points behind the component. -/
theorem Rel.stop (h : Rel world name st n dest s) :
    Shows (st.buffer name) (st.stop name) (after s) := by
  have htext := split_component s
  have hlen := congrArg length htext
  have hshows := h.shows
  rw [htext] at hshows
  rw [length_append] at hlen
  rw [State.stop, h.pending, Nat.sub_eq_of_eq_add hlen]
  exact hshows.add

theorem Rel.fits_component (h : Rel world name st n dest s) :
    fitsFrom world.fs.body? (linkFits world.fs.body? n) dest
      (component s :: (cut (after s)).tail) := by
  have hfits := h.fits
  rwa [skip_cut (f := fitsFrom world.fs.body? (linkFits world.fs.body? n) dest)
    (fun cs => by rw [fitsFrom, if_pos (.inl rfl)])] at hfits

theorem cut_after (s : Bytes) : cut (after s) = [] :: (cut (after s)).tail := by
  rcases after_head s with hs | hs
  · rw [hs]
    rfl
  · obtain ⟨t, ht⟩ := head?_eq_some_iff.1 hs
    rw [ht, cut_slash, tail_cons]

theorem canon_after (look : Loc → Option Body) (n : Nat) (dest : Loc) (s : Bytes) :
    canon look n dest (cut (after s)) = canon look n dest (cut (after s)).tail := by
  obtain ⟨follow, hcanon⟩ := canon_eq_canonFrom look n
  conv_lhs => rw [cut_after]
  rw [hcanon, canonFrom_skip (.inl rfl)]

theorem fits_after {look : Loc → Option Body} {follow : Loc → Path → Bool}
    (h : fitsFrom look follow dest (cut (after s)).tail) :
    fitsFrom look follow dest (cut (after s)) := by
  rw [cut_after, fitsFrom, if_pos (.inl rfl)]
  exact h

theorem Rel.next {rname : Bytes} {dest' : Loc} (h : Rel world name st n dest s)
    (hrname : Holds rname dest') (hnames : ∀ c ∈ dest', Proper c) (hphys : world.fs.Physical dest')
    (hfits : fitsFrom world.fs.body? (linkFits world.fs.body? n) dest' (cut (after s)).tail) :
    Rel world name { st with rname := rname, start := st.stop name } n dest' (after s) :=
  ⟨hrname, hnames, hphys, h.stop, h.extra, h.links, fits_after hfits⟩

/-- The end of the name -/
theorem Rel.finish (h : Rel world name st n dest s) (hcomp : component s = []) :
    finish world b st = answer world b st.work (canon world.fs.body? n dest (cut s)) := by
  have hnil : after s = [] := by
    rcases after_head s with hs | hs
    · exact hs
    · obtain ⟨t, ht⟩ := head?_eq_some_iff.1 hs
      have htext := component_append_after s
      rw [hcomp, ht, nil_append] at htext
      cases Span.false_of_dropWhile htext.symm
  obtain ⟨follow, hcanon⟩ := canon_eq_canonFrom world.fs.body? n
  rw [canon_cut, hcomp, hnil, hcanon, canonFrom_skip (.inl rfl), Rname.finish, h.rname.trim h.names,
    cut_locText h.names]
  rfl

theorem isAbsoluteFileName_intercalate {t : Path} (ht : ∀ c ∈ t, 47 ∉ c) :
    isAbsoluteFileName ([47].intercalate t) = isAbsolute t := by
  rcases t with - | ⟨w, t⟩
  · rfl
  rw [intercalate_cons]
  rcases w with - | ⟨a, w⟩
  · cases t <;> rfl
  · have ha : a ≠ 47 := fun h47 => ht (a :: w) mem_cons_self (h47 ▸ mem_cons_self)
    rw [isAbsoluteFileName, cons_append, head?_cons, decide_eq_false fun h =>
      ha (Option.some.inj h)]
    cases t <;> rfl

/-- The components of a target and of what follows it -/
theorem cut_target {l : Loc} {t : Path} (hworld : Textual world)
    (hlink : world.fs.body? l = some (.link t))
    (s : Bytes) : [47].intercalate t ++ after s = [47].intercalate (t ++ (cut (after s)).tail) ∧
      cut ([47].intercalate t ++ after s) = t ++ (cut (after s)).tail := by
  have hne := hworld.target_ne l t hlink
  have htext : [47].intercalate t ++ after s = [47].intercalate (t ++ (cut (after s)).tail) := by
    rw [intercalate_append hne, slashed_cut (after_head s)]
  refine ⟨htext, ?_⟩
  rw [htext, cut_intercalate (append_ne_nil_of_left_ne_nil hne _)]
  intro w hw
  rcases mem_append.1 hw with hw | hw
  · exact (hworld.target l t hlink w hw).1
  · exact not_mem_of_mem_cut (mem_of_mem_tail hw)

theorem not_mem_target {l : Loc} {t : Path} (hworld : Textual world)
    (hlink : world.fs.body? l = some (.link t)) : 0 ∉ [47].intercalate t := by
  obtain ⟨w, p, rfl⟩ := exists_cons_of_ne_nil (hworld.target_ne l t hlink)
  have hnul : ∀ c ∈ w :: p, 0 ∉ c := fun c hc => (hworld.target l _ hlink c hc).2
  rw [intercalate_cons, mem_append, not_or]
  refine ⟨hnul w mem_cons_self, fun h0 => ?_⟩
  obtain ⟨x, hx, h0⟩ := mem_flatten.1 h0
  obtain ⟨c, hc, rfl⟩ := mem_map.1 hx
  rcases mem_cons.1 h0 with h | h
  · cases h
  · exact hnul c (mem_cons_of_mem w hc) h

/-- The buffer holds the target of the symlink and the rest of the path. -/
theorem Rel.linked {t : Path} (hworld : Textual world) (h : Rel world name st (n + 1) dest s)
    (hc : Proper (component s)) (hlink : world.fs.body? (dest ++ [component s]) = some (.link t))
    (hlen : ([47].intercalate t).length + (after s).length ≤ pathMax)
    (hfits : fitsFrom world.fs.body? (linkFits world.fs.body? n) (if isAbsolute t then [] else dest)
      (t ++ (cut (after s)).tail)) :
    Rel world name (st.linked world name (slashed (dest ++ [component s])) ([47].intercalate t)) n
      (if isAbsolute t then [] else dest) ([47].intercalate t ++ after s) := by
  have hnames := proper_concat h.names hc
  have hslash : ∀ c ∈ t, 47 ∉ c := fun c hc => (hworld.target _ t hlink c hc).1
  have hroom : ([47].intercalate t).length + (after s ++ [0]).length ≤ st.extraBuffer.length := by
    rw [h.extra, length_append, length_singleton, extraSize]
    omega
  have hextra :
      (st.linked world name (slashed (dest ++ [component s])) ([47].intercalate t)).extraBuffer =
      store (store st.extraBuffer ([47].intercalate t).length (after s ++ [0])) 0
        ([47].intercalate t) := by
    rw [State.linked, h.pending, h.stop.take]
  have hstored := length_store hroom
  constructor
  case rname =>
    show Holds (if isAbsoluteFileName _ then _ else _) _
    rw [isAbsoluteFileName_intercalate hslash]
    split
    · exact .inr rfl
    · have hback := (holds_slashed (by simp)).backUp hnames
      rwa [dropLast_concat] at hback
  case names =>
    split
    · exact nofun
    · exact h.names
  case physical =>
    split
    · exact world.fs.physical_root
    · exact h.physical
  case shows =>
    show Shows (State.extraBuffer _) 0 _
    rw [hextra]
    exact shows_store (not_mem_target hworld hlink) h.stop.1 (Nat.le_of_add_right_le hroom)
  case extra =>
    rw [hextra, length_store, hstored, h.extra]
    rw [hstored, Nat.zero_add]
    exact Nat.le_of_add_right_le hroom
  case links =>
    have hlinks := h.links
    show st.numLinks + 1 + n = maxSymlinks
    omega
  case fits =>
    rwa [(cut_target hworld hlink s).2]

/-- A symlink is followed, or there were too many. -/
theorem Rel.followLink {t : Path} (hworld : Textual world) (h : Rel world name st n dest s)
    (hc : Proper (component s)) (hlink : world.fs.body? (dest ++ [component s]) = some (.link t))
    (hfits : linkFits world.fs.body? n (if isAbsolute t then [] else dest)
      (t ++ (cut (after s)).tail)) :
    (n = 0 ∧ followLink world name st (slashed (dest ++ [component s]))
      (([47].intercalate t).take pathMax) = .done .exit) ∨
    ∃ n' st', n = n' + 1 ∧ followLink world name st (slashed (dest ++ [component s]))
        (([47].intercalate t).take pathMax) = .again st' ∧
      st'.work = st.work.enqueueItem world.env (Loc.path (dest ++ [component s])) id ∧
      Rel world name st' n' (if isAbsolute t then [] else dest)
        ([47].intercalate t ++ after s) := by
  have hlinks := h.links
  cases n with
  | zero =>
    refine .inl ⟨rfl, ?_⟩
    rw [Rname.followLink, if_pos (by omega)]
  | succ n =>
    rw [linkFits, Bool.and_eq_true, decide_eq_true_eq, ← (cut_target hworld hlink s).1,
      length_append] at hfits
    obtain ⟨hlen, hfits⟩ := hfits
    have hbuf : ([47].intercalate t).take pathMax = [47].intercalate t :=
      take_of_length_le (Nat.le_of_add_right_le hlen)
    refine .inr ⟨n, _, rfl, ?_, ?_, h.linked hworld hc hlink hlen hfits⟩
    · rw [Rname.followLink, if_neg (by omega), h.pending, hbuf, if_neg (by rw [extraSize]; omega)]
    · exact congrArg (st.work.enqueueItem world.env · id) (cut_concat h.names hc)

section

variable {look : Loc → Option Body} {c : Name} {cs t : Path}

section
variable (hc : special c = false)
include hc

theorem canon_zero_link (hlink : look (dest ++ [c]) = some (.link t)) :
    canon look 0 dest (c :: cs) = none := by
  have ⟨hstay, hup⟩ := special_eq_false_iff.1 hc
  rw [canon, canonFrom, if_neg hstay, if_neg hup, hlink]
  rfl

theorem canon_succ_link (hlink : look (dest ++ [c]) = some (.link t)) :
    canon look (n + 1) dest (c :: cs) =
      (canon look n (if isAbsolute t then [] else dest) (t ++ cs)).map fun (links, r) =>
        ((dest ++ [c]) :: links, r) := by
  have ⟨hstay, hup⟩ := special_eq_false_iff.1 hc
  rw [canon, canonFrom, if_neg hstay, if_neg hup, hlink]

/-- A component that is no symlink -/
theorem canon_entry (hlink : ∀ t, look (dest ++ [c]) ≠ some (.link t)) :
    canon look n dest (c :: cs) =
      if passes (look (dest ++ [c])) cs then canon look n (dest ++ [c]) cs else none := by
  obtain ⟨follow, hcanon⟩ := canon_eq_canonFrom look n
  have ⟨hstay, hup⟩ := special_eq_false_iff.1 hc
  rw [hcanon, canonFrom, if_neg hstay, if_neg hup]
  split
  · next t ht => exact absurd ht (hlink t)
  · rfl

theorem fitsFrom_entry {follow : Loc → Path → Bool}
    (hlink : ∀ t, look (dest ++ [c]) ≠ some (.link t)) (h : fitsFrom look follow dest (c :: cs)) :
    (Put.suffixRequiresDirCheck cs → (slashed (dest ++ [c])).length + dirSuffix.length < pathMax) ∧
      (passes (look (dest ++ [c])) cs → fitsFrom look follow (dest ++ [c]) cs) := by
  have ⟨hstay, hup⟩ := special_eq_false_iff.1 hc
  rw [fitsFrom, if_neg hstay, if_neg hup, Bool.and_eq_true] at h
  replace h := h.2
  split at h
  · next t ht => exact absurd ht (hlink t)
  · rw [Bool.and_eq_true, Bool.or_eq_true, Bool.or_eq_true, Bool.not_eq_true', Bool.not_eq_true',
      decide_eq_true_eq] at h
    refine ⟨fun hcheck => h.1.resolve_left ?_, fun hpass => h.2.resolve_left ?_⟩
    · rw [hcheck]
      exact Bool.noConfusion
    · rw [hpass]
      exact Bool.noConfusion

end

end

theorem Rel.passes_iff (h : Rel world name st n dest s) (hc : Proper (component s))
    (hlink : ∀ t, world.fs.body? (dest ++ [component s]) ≠ some (.link t)) {e : Failure}
    (hlen : Put.suffixRequiresDirCheck (cut (after s)).tail →
      (slashed (dest ++ [component s])).length + dirSuffix.length < pathMax)
    (he : e = .errno .inval ↔ (world.fs.body? (dest ++ [component s])).isSome) :
    (if suffixRequiresDirCheck (after s) then dirCheck world (slashed (dest ++ [component s]))
      else e = .errno .inval) = true ↔
      passes (world.fs.body? (dest ++ [component s])) (cut (after s)).tail := by
  rw [suffixRequiresDirCheck_eq (after_head s)]
  unfold passes
  split
  · next hcheck =>
    rw [dirCheck_eq h.physical h.names hc hlink (hlen hcheck), decide_eq_true_eq]
  · rw [decide_eq_true_eq, he]

/-- What one round does: it leaves the loop with the answer, or goes on to a state with the same
answer and fewer symlinks or a shorter string left. -/
def Rounds (world : World) (name : Bytes) (b : Bool) (st : State) (n : Nat)
    (dest : Loc) (s : Bytes) :
    Prop :=
  round world name b st = .done (answer world b st.work (canon world.fs.body? n dest (cut s))) ∨
    ∃ st' n' dest' s', round world name b st = .again st' ∧ Rel world name st' n' dest' s' ∧
      (n' < n ∨ n' = n ∧ s'.length < s.length) ∧
      answer world b st'.work (canon world.fs.body? n' dest' (cut s')) =
        answer world b st.work (canon world.fs.body? n dest (cut s))

section
variable (hworld : Textual world) (h : Rel world name st n dest s)
include hworld h

/-- A round at a component other than `.` and `..` -/
theorem Rel.round_ordinary (hordinary : special (component s) = false) :
    Rounds world name b st n dest s := by
  have ⟨hstay, hup⟩ := special_eq_false_iff.1 hordinary
  have hne : component s ≠ [] := fun hnil => hstay (.inl hnil)
  have hs : s ≠ [] := by
    rintro rfl
    exact hne rfl
  have hc : Proper (component s) := by
    refine ⟨hordinary, not_mem_component s, fun h0 => h.shows.1 ?_⟩
    rw [split_component s]
    exact mem_append_left _ (mem_append_right _ h0)
  have hfits := h.fits_component
  have hlen : (slashed (dest ++ [component s])).length < pathMax := by
    rw [fitsFrom, if_neg hstay, if_neg hup, Bool.and_eq_true, decide_eq_true_eq] at hfits
    exact hfits.1
  have hread := readlink_eq h.physical h.names hc hlen
  have hround : round world name b st =
      match readlink world (slashed (dest ++ [component s])) with
      | .ok buf => Rname.followLink world name st (slashed (dest ++ [component s])) buf
      | .error e =>
        if (if suffixRequiresDirCheck (after s) then
          dirCheck world (slashed (dest ++ [component s]))
            else e = .errno .inval) then
          .again { st with rname := slashed (dest ++ [component s]), start := st.stop name }
        else .done .exit := by
    unfold Rname.round
    have hfit : ¬rnameSize < (slashed (dest ++ [component s])).length + (dirSuffix.length + 1) := by
      rw [rnameSize]
      omega
    simp only [h.pending, if_neg hs, if_neg hne, if_neg fun hd => hstay (.inr hd), if_neg hup,
      h.rname.extend h.names, if_neg hfit]
  unfold Rounds
  rw [hround, canon_cut]
  by_cases hlink : ∃ t, world.fs.body? (dest ++ [component s]) = some (.link t)
  · obtain ⟨t, hlink⟩ := hlink
    rw [hlink] at hread
    rw [hread]
    rw [fitsFrom, if_neg hstay, if_neg hup, Bool.and_eq_true, hlink] at hfits
    rcases h.followLink hworld hc hlink hfits.2 with
      ⟨rfl, hdone⟩ | ⟨n, st', rfl, hagain, hwork, hrel⟩
    · refine .inl ?_
      rw [canon_zero_link hordinary hlink]
      exact hdone
    · refine .inr ⟨st', n, _, _, hagain, hrel, .inl (Nat.lt_succ_self n), ?_⟩
      rw [(cut_target hworld hlink s).2, canon_succ_link hordinary hlink, hwork]
      cases canon world.fs.body? n (if isAbsolute t then [] else dest)
        (t ++ (cut (after s)).tail) <;> rfl
  · have hlink (t : Path) : world.fs.body? (dest ++ [component s]) ≠ some (.link t) :=
      fun ht => hlink ⟨t, ht⟩
    obtain ⟨hroom, hfits⟩ := fitsFrom_entry hordinary hlink hfits
    obtain ⟨e, he, hinval⟩ : ∃ e, readlink world (slashed (dest ++ [component s])) = .error e ∧
        (e = .errno .inval ↔ (world.fs.body? (dest ++ [component s])).isSome) := by
      split at hread
      · next t ht => exact absurd ht (hlink t)
      · exact hread
    have hpasses := h.passes_iff hc hlink hroom hinval
    rw [he, canon_entry hordinary hlink]
    by_cases hpass : passes (world.fs.body? (dest ++ [component s])) (cut (after s)).tail
    · obtain ⟨body, hbody⟩ := Option.ne_none_iff_exists'.1 (ne_none_of_passes hpass)
      refine .inr ⟨_, n, dest ++ [component s], after s, if_pos (hpasses.2 hpass),
        h.next (holds_slashed (by simp)) (proper_concat h.names hc)
          ⟨body, hbody, fun t ht => hlink t (ht ▸ hbody)⟩ (hfits hpass),
        .inr ⟨rfl, length_after_lt hne⟩, ?_⟩
      rw [if_pos hpass, canon_after]
    · refine .inl ?_
      rw [if_neg hpass]
      exact if_neg fun htrue => hpass (hpasses.1 htrue)

/-- A round of the loop against one step of the resolution -/
theorem Rel.round : Rounds world name b st n dest s := by
  obtain ⟨follow, hcanon⟩ := canon_eq_canonFrom world.fs.body? n
  have hfits := h.fits_component
  by_cases hnil : component s = []
  · refine .inl ?_
    simp only [← h.finish hnil, Rname.round, h.pending, if_pos hnil, ite_self]
  have hs : s ≠ [] := by
    rintro rfl
    exact hnil rfl
  by_cases hdot : component s = dot
  · rw [fitsFrom, if_pos (.inr hdot)] at hfits
    refine .inr ⟨_, n, dest, after s, ?_, h.next h.rname h.names h.physical hfits,
      .inr ⟨rfl, length_after_lt hnil⟩, ?_⟩
    · simp only [Rname.round, h.pending, if_neg hs, if_neg hnil, if_pos hdot]
    · rw [canon_after, canon_cut, hcanon, canonFrom_skip (.inr hdot)]
  have hstay : ¬(component s = [] ∨ component s = dot) := not_or.2 ⟨hnil, hdot⟩
  by_cases hup : component s = dotDot
  · rw [fitsFrom, if_neg hstay, if_pos hup] at hfits
    refine .inr ⟨_, n, dest.dropLast, after s, ?_, h.next (h.rname.backUp h.names)
      (fun c hc => h.names c (mem_of_mem_dropLast hc)) h.physical.dropLast hfits,
      .inr ⟨rfl, length_after_lt hnil⟩, ?_⟩
    · simp only [Rname.round, h.pending, if_neg hs, if_neg hnil, if_neg hdot, if_pos hup]
    · rw [canon_after, canon_cut, hcanon, canonFrom, if_neg hstay, if_pos hup]
  · exact h.round_ordinary hworld (special_eq_false_iff.2 ⟨hstay, hup⟩)

/-- The loop returns what the resolution finds. -/
theorem Rel.returns : Returns (Rname.round world name b) st
      (answer world b st.work (canon world.fs.body? n dest (cut s))) := by
  -- the symlinks that may still come go first, and then the length of the string that is left
  have hround : ∀ t : State, (∃ n' dest' s', Rel world name t n' dest' s' ∧
        answer world b t.work (canon world.fs.body? n' dest' (cut s')) =
          answer world b st.work (canon world.fs.body? n dest (cut s))) →
      (∃ r, Rname.round world name b t = .done r ∧ r =
        answer world b st.work (canon world.fs.body? n dest (cut s))) ∨
      ∃ t', Rname.round world name b t = .again t' ∧ (∃ n' dest' s', Rel world name t' n' dest' s' ∧
          answer world b t'.work (canon world.fs.body? n' dest' (cut s')) =
            answer world b st.work (canon world.fs.body? n dest (cut s))) ∧
        WellFoundedRelation.rel (maxSymlinks - t'.numLinks, (t'.pending name).length)
          (maxSymlinks - t.numLinks, (t.pending name).length) := by
    rintro t ⟨n', dest', s', hrel, hans⟩
    rcases hrel.round (b := b) hworld with hdone | ⟨t', n₁, dest₁, s₁, hagain, hrel₁, hlt, hans₁⟩
    · exact .inl ⟨_, hdone, hans⟩
    · refine .inr ⟨t', hagain, ⟨n₁, dest₁, s₁, hrel₁, hans₁.trans hans⟩, ?_⟩
      have hlinks := hrel.links
      have hlinks₁ := hrel₁.links
      rw [hrel.pending, hrel₁.pending]
      rcases hlt with hlt | ⟨rfl, hlt⟩
      · have hless : maxSymlinks - t'.numLinks < maxSymlinks - t.numLinks := by omega
        exact Prod.Lex.left _ _ hless
      · have heq : t'.numLinks = t.numLinks := by omega
        rw [heq]
        exact Prod.Lex.right _ hlt
  obtain ⟨r, hr, rfl⟩ := returns_of_wellFounded
    (fun t : State => (maxSymlinks - t.numLinks, (t.pending name).length)) hround
      ⟨n, dest, s, h, rfl⟩
  exact hr

end

end

/-! ## The function -/

section

variable {world : World} {name extra : Bytes} {b : Bool} {work : Work}

theorem isAbsolute_cut (name : Bytes) : isAbsolute (cut name) = isAbsoluteFileName name := by
  rw [← isAbsoluteFileName_intercalate fun c hc => not_mem_of_mem_cut hc, intercalate_cut]

theorem cut_eq_nil_iff : cut name = [[]] ↔ name = [] := by
  refine ⟨fun h => ?_, fun h => by rw [h]; rfl⟩
  have htext := intercalate_cut name
  rw [h] at htext
  exact htext.symm

theorem body?_startOf (world : World) (p : Path) :
    world.fs.body? (startOf world p) = some .dir := by
  unfold startOf
  split
  · exact world.fs.root_dir
  · exact world.cwd_dir

/-- Before the first round the buffer holds the name. -/
theorem rel_begin (work : Work) (hworld : Textual world) (hnul : 0 ∉ name) (hfits : Fits world name)
    (hextra : extra.length = extraSize) (hne : name ≠ []) :
    ∃ st, begin world name extra work = some st ∧ st.work = work ∧
      Rel world name st maxSymlinks (startOf world (cut name)) name := by
  obtain ⟨hcwd, hfits⟩ := hfits
  unfold begin
  rw [if_neg hne]
  cases habs : isAbsoluteFileName name with
  | true =>
    have hstart : startOf world (cut name) = [] := by
      rw [startOf, isAbsolute_cut, habs, if_pos rfl]
    refine ⟨_, rfl, rfl, ?_⟩
    rw [hstart] at hfits ⊢
    exact ⟨.inr rfl, nofun, world.fs.physical_root, shows_of_cstring hnul, hextra,
      Nat.zero_add _, hfits⟩
  | false =>
    have hstart : startOf world (cut name) = world.cwd := by
      rw [startOf, isAbsolute_cut, habs, if_neg Bool.false_ne_true]
    rw [getcwd, if_pos (hcwd habs)]
    refine ⟨_, rfl, rfl, ?_⟩
    rw [hstart] at hfits ⊢
    exact ⟨holds_locText _, hworld.cwd, .of_dir world.cwd_dir, shows_of_cstring hnul, hextra,
      Nat.zero_add _, hfits⟩

/-- The loop on the buffer refines the one on components. -/
theorem enqueueCanonicalizedPath_refines (hworld : Textual world) (hnul : 0 ∉ name)
    (hfits : Fits world name) (hextra : extra.length = extraSize) {out : Outcome} :
    EnqueueCanonicalizedPath world name b extra work out ↔
      out = match work.enqueueCanonicalizedPath world.env (cut name) b with
        | none => .exit
        | some w => .returned w := by
  unfold EnqueueCanonicalizedPath
  by_cases hne : name = []
  · have hcanon : world.env.canonicalize (cut name) = none := if_pos (cut_eq_nil_iff.2 hne)
    rw [Work.enqueueCanonicalizedPath, hcanon, begin, if_pos hne]
    rfl
  · obtain ⟨st, hbegin, hwork, hrel⟩ := rel_begin work hworld hnul hfits hextra hne
    have hret := hrel.returns (b := b) hworld
    have hcanon : world.env.canonicalize (cut name) =
        (canon world.fs.body? maxSymlinks (startOf world (cut name)) (cut name)).map
          fun (links, r) => (links.map Loc.path, Loc.path r) :=
      if_neg fun hnil => hne (cut_eq_nil_iff.1 hnil)
    have hanswer :
        answer world b st.work
          (canon world.fs.body? maxSymlinks (startOf world (cut name)) (cut name)) =
        match work.enqueueCanonicalizedPath world.env (cut name) b with
        | none => .exit
        | some w => .returned w := by
      rw [Work.enqueueCanonicalizedPath, hcanon, hwork]
      cases canon world.fs.body? maxSymlinks (startOf world (cut name)) (cut name) <;> rfl
    rw [hbegin, ← hanswer]
    exact ⟨fun h => h.unique hret, fun h => h ▸ hret⟩

/-- The object that a name leads to from the working directory, if no component is missing, every
component that needs to be one is a directory, and there are at most `MAXSYMLINKS` symlinks. -/
def reference (world : World) (name : Bytes) : Except Errno Loc :=
  if name = [] then .error .noent
  else walk world.fs.body? (maxSymlinks + 1) (startOf world (cut name)) (cut name)

/-- The symlinks that a name traverses, and a location that stands for the same object. -/
structure Canonical (world : World) (name : Bytes) (links : List Loc) (r : Loc) : Prop where
  traversed : Resolves world.fs.body? (startOf world (cut name)) (cut name) links r
  few : links.length ≤ maxSymlinks
  absolute : isAbsolute (Loc.path r)
  plain : ∀ c ∈ r, c ≠ [] ∧ c ≠ dot ∧ c ≠ dotDot
  noSymlink : ∀ l, l <+: r → ∀ t, world.fs.body? l ≠ some (.link t)
  named : world.fs.resolve world.cwd (cut name) = .ok r
  same : world.fs.resolve world.cwd (Loc.path r) = .ok r

theorem canonical_of_resolves {links : List Loc} {r : Loc} (hworld : Textual world)
    (hne : name ≠ []) (hres : Resolves world.fs.body? (startOf world (cut name)) (cut name) links r)
    (hfew : links.length ≤ maxSymlinks) : Canonical world name links r := by
  have hphys := Fs.physical_of_resolves hres (.of_dir (body?_startOf world (cut name)))
  have hnames : ∀ c ∈ r, special c = false := by
    refine Fs.names_of_resolves hres (fun _ _ _ _ _ hc => hc) ?_ fun _ _ hc => hc
    unfold startOf
    split
    · exact nofun
    · exact fun c hc => (hworld.cwd c hc).ordinary
  refine ⟨hres, hfew, ?_, fun c hc => ?_, fun l hl t => (hphys.of_prefix hl).not_link t, ?_,
    Fs.resolve_path hphys hnames⟩
  · cases r <;> rfl
  · obtain ⟨hstay, hup⟩ := special_eq_false_iff.1 (hnames c hc)
    exact ⟨fun h => hstay (.inl h), fun h => hstay (.inr h), hup⟩
  · rw [Fs.resolve, if_neg fun hnil => hne (cut_eq_nil_iff.1 hnil)]
    exact hres.walk (hfew.trans (by decide))

theorem isPathAdded_of_grows {env : Env} {P : Path → Prop} {w w' : Work} {y : Path}
    (h : Grows env P w w') (hy : P y) (hincluded : env.excluded y = false) : w'.isPathAdded y := by
  rw [Work.isPathAdded_iff, Work.inTree_iff, h.tree, h.mem]
  by_cases htree : y ∈ w.tree.map File.src
  · exact .inl htree
  · exact .inr (.inr ⟨hy, hincluded, htree⟩)

/-- The function ends. It exits exactly if the resolution of the path fails; otherwise it enqueues,
apart from what is excluded, the symlinks traversed and last a canonical path of the same object. -/
theorem enqueueCanonicalizedPath_resolves (world : World) (hworld : Textual world) (name : Bytes)
    (hnul : 0 ∉ name) (hfits : Fits world name) (extra : Bytes) (hextra : extra.length = extraSize)
    (addRecursively : Bool) (work : Work) :
    (∃ out, EnqueueCanonicalizedPath world name addRecursively extra work out) ∧
    ∀ out, EnqueueCanonicalizedPath world name addRecursively extra work out →
      (out = .exit ↔ ∃ e, reference world name = .error e) ∧
      ∀ work', out = .returned work' → ∃ links r, reference world name = .ok r ∧
        Canonical world name links r ∧
        work' = (work.enqueueItems world.env (links.map Loc.path)).enqueueItem
          world.env (Loc.path r)
          (.setRecursive addRecursively) ∧
        ∀ y ∈ links.map Loc.path ++ [Loc.path r], world.excluded y = false →
          work'.isPathAdded y := by
  refine ⟨⟨_, (enqueueCanonicalizedPath_refines hworld hnul hfits hextra).2 rfl⟩,
    fun out hout => ?_⟩
  rw [(enqueueCanonicalizedPath_refines hworld hnul hfits hextra).1 hout]
  by_cases hne : name = []
  · have hcanon : world.env.canonicalize (cut name) = none := if_pos (cut_eq_nil_iff.2 hne)
    rw [Work.enqueueCanonicalizedPath, hcanon, reference, if_pos hne]
    exact ⟨⟨fun _ => ⟨_, rfl⟩, fun _ => rfl⟩, fun work' h => nomatch h⟩
  have hstart := body?_startOf world (cut name)
  have hcanon : world.env.canonicalize (cut name) =
      (canon world.fs.body? maxSymlinks (startOf world (cut name)) (cut name)).map
        fun (links, r) => (links.map Loc.path, Loc.path r) :=
    if_neg fun hnil => hne (cut_eq_nil_iff.1 hnil)
  rw [Work.enqueueCanonicalizedPath, hcanon, reference, if_neg hne, ← canon_eq_none_iff hstart]
  cases hres : canon world.fs.body? maxSymlinks (startOf world (cut name)) (cut name) with
  | none => exact ⟨⟨fun _ => rfl, fun _ => rfl⟩, fun work' h => nomatch h⟩
  | some res =>
    obtain ⟨links, r⟩ := res
    obtain ⟨htraversed, hfew⟩ := (canon_eq_some_iff hstart).1 hres
    refine ⟨⟨(fun h => nomatch h), (fun h => nomatch h)⟩, ?_⟩
    rintro work' ⟨⟩
    refine ⟨links, r, htraversed.walk hfew,
      canonical_of_resolves hworld hne htraversed hfew, rfl, ?_⟩
    intro y hy hincluded
    refine isPathAdded_of_grows ((enqueueItems_grows work (links.map Loc.path)).trans
      (enqueueItem_grows (renames_setRecursive addRecursively) _)) ?_ hincluded
    rwa [mem_append, mem_singleton] at hy

theorem sampleWorld_textual : Textual sampleWorld := by
  have htargets : ∀ l t, sampleWorld.fs.body? l = some (.link t) → t = [[115]] := by
    intro l t h
    obtain ⟨i, hi, hbody⟩ := Option.map_eq_some_iff.1 h
    have hmem := Fs.mem_of_find hi
    simp only [mem_cons, Prod.mk.injEq, not_mem_nil, or_false] at hmem
    rcases hmem with ⟨-, rfl⟩ | ⟨-, rfl⟩ | ⟨-, rfl⟩ | ⟨-, rfl⟩ | ⟨-, rfl⟩ <;> cases hbody
    rfl
  refine ⟨by simp [sampleWorld], fun l t h => ?_, fun l t h => ?_⟩
  · rw [htargets l t h]
    exact cons_ne_nil _ _
  · rw [htargets l t h]
    decide

theorem enqueueCanonicalizedPath_resolves_sample :
    Textual sampleWorld ∧ 0 ∉ Words.text "./l" ∧ Fits sampleWorld (Words.text "./l") ∧
    reference sampleWorld (Words.text "./l") = .ok [[115]] ∧
    ∃ work', EnqueueCanonicalizedPath sampleWorld (Words.text "./l") true (.replicate extraSize 0)
      ⟨[], [], [], 0⟩ (.returned work') ∧ work'.isPathAdded [[], [115]] := by
  have hnul : 0 ∉ Words.text "./l" := by decide
  have hfits : Fits sampleWorld (Words.text "./l") := by decide
  have hok : reference sampleWorld (Words.text "./l") = .ok [[115]] := by decide
  refine ⟨sampleWorld_textual, hnul, hfits, hok, ?_⟩
  obtain ⟨⟨out, hout⟩, hall⟩ := enqueueCanonicalizedPath_resolves sampleWorld sampleWorld_textual
    (Words.text "./l") hnul hfits (.replicate extraSize 0) length_replicate true ⟨[], [], [], 0⟩
  obtain ⟨hexit, hret⟩ := hall out hout
  cases out with
  | exit =>
    obtain ⟨e, he⟩ := hexit.1 rfl
    cases hok.symm.trans he
  | returned work' =>
    obtain ⟨links, r, hr, -, -, hadded⟩ := hret work' rfl
    cases hok.symm.trans hr
    exact ⟨work', hout, hadded _ (mem_append_right _ mem_cons_self) rfl⟩

end

end MakeInitrd.Put.Rname
