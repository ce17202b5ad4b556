import MakeInitrd.Lib.Words
import MakeInitrd.Udev.GotoLabel

/-!
# The checks of a rule

`process_token` with everything it reports. It compares a pair that is complete with those that the
rule has got before. An attribute that is missing is a null pointer: some keys report that and then
read it all the same, where C gives the program no meaning. A check is therefore a list of reports,
and whether it has been finished.
-/

namespace MakeInitrd.Udev

open CMem Words

/-- `warning` and `show_external` of `struct rules_state`, as far as the checks of a rule read them
-/
structure Settings where
  dupMatch : Bool
  conflictMatch : Bool
  multiLabel : Bool
  multiGoto : Bool
  showExternal : Bool
deriving DecidableEq

/-- What is reported about a pair, at the position of its key unless another one is given -/
inductive Report where
  /-- `invalid attribute for %s.` -/
  | invalidAttr (p : Pair)
  /-- `%s can not have '%s' operator.`, at the position of the operation -/
  | invalidOp (p : Pair)
  /-- `%s key takes … operator.` -/
  | takes (p : Pair) (pos : Pos) (ops : List Op)
  /-- `unknown attribute "%s".`; for some keys also `This rule will never match.` -/
  | unknownAttr (p : Pair) (neverMatches : Bool)
  /-- `"%s" must be specified as "subsystem".`, at the position of the value -/
  | notSubsystem (p : Pair)
  /-- `invalid ENV attribute. '%s' cannot be set.` -/
  | envCannotBeSet (p : Pair)
  /-- `ignoring NAME="%%k", as it will take no effect.` -/
  | ignoringNameKernel (p : Pair)
  /-- `ignoring NAME="", as udev will not delete any network interfaces.` -/
  | ignoringNameEmpty (p : Pair)
  /-- The line of an external program or file on the standard output -/
  | external (p : Pair)
  /-- `conditions contradict each other and will never be both true (previous one was at …)` -/
  | contradict (p previous : Pair)
  /-- `is duplicated %d times in the same rule` -/
  | duplicated (p : Pair) (times : Nat)
  /-- `is checked for == and != at the same time` -/
  | conflict (p : Pair)
  /-- `multiple LABEL assignments in a single rule are not supported` -/
  | multiLabel (p : Pair)
  /-- `multiple GOTO assignments in a single rule are not supported` -/
  | multiGoto (p : Pair)
deriving DecidableEq

/-! ## Checks -/

/-- The reports of a check, and whether it was finished: one that reads a missing attribute is not.
-/
structure Checked where
  reports : List Report
  finished : Bool
deriving DecidableEq

def Checked.report (c : Bool) (r : Report) : Checked := ⟨if c then [r] else [], true⟩

/-- `pair->attr->string` is read. -/
def Checked.readAttr (p : Pair) (f : Bytes → Checked) : Checked :=
  match p.attr with
  | some a => f a
  | none => ⟨[], false⟩

/-- One check after the other, as long as they are finished -/
def Checked.seq : List Checked → Checked
  | [] => ⟨[], true⟩
  | c :: cs => if c.finished then ⟨c.reports ++ (seq cs).reports, (seq cs).finished⟩ else c

/-- `in_list` -/
def inList (k : Bytes) (l : List String) : Bool := l.any fun s => cstr k = text s

/-- `isempty` -/
def isempty (s : Bytes) : Bool := cstr s = []

open Checked

/-- `if (pair->attr) rule_log_invalid_attr(state, pair);` -/
def noAttr (p : Pair) : Checked := report p.attr.isSome (.invalidAttr p)

/-- `if (!pair->attr || isempty(pair->attr->string)) rule_log_invalid_attr(state, pair);` -/
def needsAttr (p : Pair) : Checked := report (p.attr.elim true isempty) (.invalidAttr p)

/-- `rule_log_invalid_op` under a condition -/
def badOp (p : Pair) (c : Bool) : Checked := report c (.invalidOp p)

/-- What `process_token` does for the key of a pair -/
def keyChecks (w : Settings) (p : Pair) : List Checked :=
  match p.key with
  | .action | .devpath | .driver | .drivers | .kernel | .kernels | .subsystems =>
    [noAttr p, badOp p !p.isOpMatch]
  | .attr | .sysctl =>
    [needsAttr p, badOp p (p.op = .remove),
      report (p.op = .add ∨ p.op = .assignFinal) (.takes p p.posOp [.match_, .nomatch, .assign])]
  | .attrs => [needsAttr p, badOp p !p.isOpMatch]
  | .const =>
    [needsAttr p, readAttr p fun a => report (!inList a ["arch", "virt"]) (.unknownAttr p true),
      badOp p !p.isOpMatch]
  | .subsystem =>
    [noAttr p, badOp p !p.isOpMatch, report (inList p.value ["bus", "class"]) (.notSubsystem p)]
  | .env =>
    [needsAttr p, badOp p (p.op = .remove),
      report (p.op = .assignFinal) (.takes p p.posKey [.match_, .nomatch, .assign, .add]),
      if p.isOpMatch then seq [] else readAttr p fun a =>
        report (inList a ["ACTION", "DEVLINKS", "DEVNAME", "DEVPATH", "DEVTYPE",
          "DRIVER", "IFINDEX",
          "MAJOR", "MINOR", "SEQNUM", "SUBSYSTEM", "TAGS"]) (.envCannotBeSet p)]
  | .goto | .label => [noAttr p, badOp p (p.op ≠ .assign)]
  | .owner | .group | .mode | .options => [noAttr p, badOp p (p.isOpMatch ∨ p.op = .remove)]
  | .import_ =>
    [needsAttr p, badOp p (p.op = .remove), readAttr p fun a =>
        report (!inList a ["file", "program", "builtin", "db", "cmdline", "parent"])
          (.unknownAttr p false),
      if w.showExternal then readAttr p fun a =>
        report (inList a ["file", "program", "builtin"]) (.external p) else seq []]
  | .name =>
    [noAttr p, badOp p (p.op = .remove),
      report (p.op = .add) (.takes p p.posKey [.match_, .nomatch, .assign, .assignFinal]),
      report (¬p.isOpMatch ∧ cstr p.value = text "%k") (.ignoringNameKernel p),
      report (¬p.isOpMatch ∧ isempty p.value) (.ignoringNameEmpty p)]
  | .program => [noAttr p, badOp p (p.op = .remove), report w.showExternal (.external p)]
  | .result | .symlink | .tags => [noAttr p]
  | .run =>
    let p' := { p with attr := processedAttr p }
    [badOp p' (p.isOpMatch ∨ p.op = .remove),
      readAttr p' fun a => report (!inList a ["builtin", "program"]) (.unknownAttr p' false),
      report w.showExternal (.external p')]
  | .seclabel =>
    [needsAttr p, badOp p (p.isOpMatch ∨ p.op = .remove),
      report (p.op = .assignFinal) (.takes p p.posKey [.assign, .add])]
  | .tag =>
    [noAttr p, report (p.op = .assignFinal) (.takes p p.posKey [.match_, .nomatch, .assign, .add])]
  | .test => [badOp p !p.isOpMatch]

/-! ## Pairs of one rule -/

/-- `same_attr` -/
def sameAttr (a b : Pair) : Bool :=
  match a.attr, b.attr with
  | none, none => true
  | some x, some y => cstr x = cstr y
  | _, _ => false

/-- The keys for which different values are taken for a contradiction -/
def conflictKeys : List Key :=
  [.action, .attr, .attrs, .const, .devpath, .driver, .drivers, .env, .kernel, .kernels,
    .name, .result, .subsystem, .subsystems, .symlink, .sysctl, .tag, .tags]

/-- `!strpbrk(s, "*?[|")` -/
def noPattern (s : Bytes) : Bool := (cstr s).all fun c => c ≠ 42 ∧ c ≠ 63 ∧ c ≠ 91 ∧ c ≠ 124

/-- An earlier pair of the rule has the same key and value and attribute: it is counted, as a
duplicate if the operations are the same. -/
def sameEntry (p q : Pair) : Bool := p.key = q.key ∧ cstr p.value = cstr q.value ∧ sameAttr p q

/-- An earlier pair of the rule compares the same with another value. -/
def contradicts (w : Settings) (p q : Pair) : Bool :=
  p.key = q.key ∧ cstr p.value ≠ cstr q.value ∧ w.conflictMatch ∧ p.op = .match_ ∧ p.key ∈
    conflictKeys ∧
    noPattern q.value ∧ noPattern p.value ∧ p.op = q.op ∧ sameAttr p q

/-- `check_match_conditions`, with the pairs before `p` in the rule -/
def checkMatchConditions (w : Settings) (earlier : List Pair) (p : Pair) : List Report :=
  if p.isOpMatch then
    let dups := if w.dupMatch then earlier.countP fun q => sameEntry p q ∧ p.op = q.op else 0
    let conflicts := if w.conflictMatch then earlier.countP fun q =>
      sameEntry p q ∧ p.op ≠ q.op else 0
    (earlier.filter (contradicts w p)).map (.contradict p) ++
      (if dups = 0 then [] else [.duplicated p (dups + 1)]) ++ if conflicts = 0 then []
        else [.conflict p]
  else []

/-- `check_multi_goto_label`: the first earlier pair that is reported ends the search. -/
def checkMultiGotoLabel (w : Settings) (earlier : List Pair) (p : Pair) : List Report :=
  if (p.key = .label ∨ p.key = .goto) ∧ ¬p.isOpMatch then
    (earlier.findSome? fun q =>
      if w.multiLabel ∧ q.key = .label then some (.multiLabel p)
      else if w.multiGoto ∧ q.key = .goto then some (.multiGoto p) else none).toList
  else []

/-- `process_token` for a pair behind those before it in the rule: what it reports. The pair itself
becomes `processed p`, which is what the later checks read. -/
def checkToken (w : Settings) (earlier : List Pair) (p : Pair) : Checked :=
  seq (keyChecks w p ++
    [⟨checkMatchConditions w earlier (processed p), true⟩,
      ⟨checkMultiGotoLabel w earlier (processed p), true⟩])

/-- `process_token` for the pairs of a line, one after the other, until one is not finished;
`earlier` are the pairs that the rule has before, processed. -/
def checkPairs (w : Settings) (earlier : List Pair) : List Pair → List Checked
  | [] => []
  | p :: ps =>
    checkToken w earlier p ::
      if (checkToken w earlier p).finished then checkPairs w (earlier ++ [processed p]) ps else []

/-! ## Missing attributes -/

theorem seq_finished (cs : List Checked) : (seq cs).finished = cs.all (·.finished) := by
  induction cs with
  | nil => rfl
  | cons c cs ih =>
    rw [seq, List.all_cons, ← ih]
    cases hc : c.finished with
    | true => simp
    | false => simpa using hc

theorem mem_seq_head {c : Checked} {cs : List Checked} {r : Report} (h : r ∈ c.reports) :
    r ∈ (seq (c :: cs)).reports := by
  rw [seq]
  split_ifs
  · exact List.mem_append_left _ h
  · exact h

/-- The keys that report a missing attribute -/
def requiresAttr (k : Key) : Bool :=
  k ∈ [Key.attr, .sysctl, .attrs, .const, .env, .import_, .seclabel]

@[simp] theorem report_finished (c : Bool) (r : Report) : (report c r).finished = true := rfl

@[simp] theorem readAttr_finished (p : Pair) (c : Bytes → Bool) (r : Report) :
    (readAttr p fun a => report (c a) r).finished = p.attr.isSome := by
  unfold readAttr
  split <;> simp_all

@[simp] theorem noAttr_finished (p : Pair) : (noAttr p).finished = true := rfl

@[simp] theorem needsAttr_finished (p : Pair) : (needsAttr p).finished = true := rfl

@[simp] theorem badOp_finished (p : Pair) (c : Bool) : (badOp p c).finished = true := rfl

theorem keyChecks_finished (w : Settings) (p : Pair) :
    (keyChecks w p).all (·.finished) = !readsMissingAttr p := by
  unfold readsMissingAttr readsAttr
  cases hk : p.key
  case env =>
    cases hop : p.isOpMatch <;> simp [keyChecks, hk, hop, seq]
  case import_ =>
    cases hw : w.showExternal <;> simp [keyChecks, hk, hw, seq]
  case run =>
    simp [keyChecks, hk, readAttr, processedAttr]
  all_goals simp [keyChecks, hk]

theorem checkToken_finished (w : Settings) (earlier : List Pair) (p : Pair) :
    (checkToken w earlier p).finished = !readsMissingAttr p := by
  rw [checkToken, seq_finished, List.all_append, keyChecks_finished]
  simp

theorem keyChecks_requires {p : Pair} (h : requiresAttr p.key) (w : Settings) :
    ∃ cs, keyChecks w p = needsAttr p :: cs := by
  cases hk : p.key <;>
    first | (simp [hk, requiresAttr] at h; done) | exact ⟨_, by simp only [keyChecks, hk]; rfl⟩

theorem mem_checkToken_invalidAttr {p : Pair} (h : requiresAttr p.key) (hattr : p.attr = none)
    (w : Settings) (earlier : List Pair) : .invalidAttr p ∈ (checkToken w earlier p).reports := by
  obtain ⟨cs, hcs⟩ := keyChecks_requires h w
  rw [checkToken, hcs, List.cons_append]
  exact mem_seq_head (by simp [needsAttr, report, hattr])

/-- `process_token` is finished for each of the pairs, and it reports each attribute that is
required and missing. -/
structure WellChecked (w : Settings) (earlier ps : List Pair) : Prop where
  length : (checkPairs w earlier ps).length = ps.length
  finished : ∀ c ∈ checkPairs w earlier ps, c.finished
  reported : ∀ (i : Nat) (p : Pair) (c : Checked), ps[i]? = some p →
    (checkPairs w earlier ps)[i]? = some c →
    requiresAttr p.key → p.attr = none → .invalidAttr p ∈ c.reports

theorem checkPairs_of_read {w : Settings} {earlier ps : List Pair}
    (h : ∀ p ∈ ps, readsMissingAttr p = false) :
    WellChecked w earlier ps := by
  induction ps generalizing earlier with
  | nil => exact ⟨rfl, nofun, nofun⟩
  | cons p ps ih =>
    have hfin : (checkToken w earlier p).finished := by rw [checkToken_finished, h p (by simp)]; rfl
    have heq : checkPairs w earlier (p :: ps) =
        checkToken w earlier p :: checkPairs w (earlier ++ [processed p]) ps := by
      rw [checkPairs, if_pos hfin]
    have ih := @ih (earlier ++ [processed p]) fun q hq => h q (List.mem_cons_of_mem _ hq)
    refine ⟨?_, ?_, ?_⟩
    · rw [heq, List.length_cons, List.length_cons, ih.length]
    · rw [heq]
      exact List.forall_mem_cons.2 ⟨hfin, ih.finished⟩
    · rw [heq]
      rintro (_ | i) q c hq hc hreq hattr
      · cases hq
        cases hc
        exact mem_checkToken_invalidAttr hreq hattr w earlier
      · exact ih.reported i q c hq hc hreq hattr

theorem readsMissingAttr_of_finished {w : Settings} {earlier ps : List Pair}
    (h : WellChecked w earlier ps) :
    ∀ p ∈ ps, readsMissingAttr p = false := by
  obtain ⟨hlen, hfin, -⟩ := h
  induction ps generalizing earlier with
  | nil => exact nofun
  | cons p ps ih =>
    have hp : (checkToken w earlier p).finished := hfin _ (by rw [checkPairs]; simp)
    rw [checkPairs, if_pos hp] at hlen hfin
    refine List.forall_mem_cons.2 ⟨?_, ih (Nat.succ.inj hlen) fun c hc =>
      hfin c (List.mem_cons_of_mem _ hc)⟩
    rw [checkToken_finished] at hp
    simpa using hp

/-- The pairs of a line are all checked, whatever the rule has before them, if and only if none of
them is a `CONST`, an `IMPORT` or an assignment to `ENV` without an attribute. -/
theorem wellChecked_iff (w : Settings) (earlier ps : List Pair) : WellChecked w earlier ps ↔
      ∀ p ∈ ps, p.attr = none → p.key ≠ .const ∧ p.key ≠ .import_ ∧
        (p.key = .env → p.isOpMatch) := by
  have hcond : ∀ p : Pair, readsMissingAttr p = false ↔
      (p.attr = none → p.key ≠ .const ∧ p.key ≠ .import_ ∧ (p.key = .env → p.isOpMatch)) := by
    intro p
    cases hattr : p.attr <;> simp [readsMissingAttr, readsAttr, hattr]
  simp only [← hcond]
  exact ⟨readsMissingAttr_of_finished, checkPairs_of_read⟩

/-- `IMPORT="x"` reports the missing attribute and then reads it; `NAME="y"` behind it is not
checked. -/
theorem not_wellChecked : isRule (scan (text "IMPORT=\"x\", NAME=\"y\"\n")) ∧
      ¬WellChecked ⟨true, true, true, true, false⟩ []
        (linePairs .start .default (scan (text "IMPORT=\"x\", NAME=\"y\"\n"))) := by
  refine ⟨by decide +kernel, fun h => ?_⟩
  have := h.length
  revert this
  decide +kernel

end MakeInitrd.Udev
