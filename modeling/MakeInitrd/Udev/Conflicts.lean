import MakeInitrd.Udev.Checks

/-!
# Conflicting matches

What `check_match_conditions` says about a rule against what udev makes of it. A device has one
value for most keys, sets for `TAG`, `TAGS` and `SYMLINK`, and a chain of parents, one of which all
parent keys of a rule are about (`Device.Satisfies`). A warning is right if there are two match
conditions that cannot both hold (`Genuine`). It is wrong in two cases: an assignment before a match
of the same value is taken for a second match, and for the three keys with sets different values are
no contradiction.
-/

namespace MakeInitrd.Udev

open CMem Words List

/-! ## Devices -/

/-- The keys with one value, for each attribute if they have attributes -/
def valueKeys : List Key :=
  [.action, .devpath, .kernel, .name, .subsystem, .driver, .result, .attr, .env, .const, .sysctl,
    .kernels, .subsystems, .drivers, .attrs]

/-- The keys that match if any element of a set matches -/
def setKeys : List Key := [.tag, .tags, .symlink]

/-- The keys that are about a parent -/
def parentKeys : List Key := [.kernels, .subsystems, .drivers, .attrs, .tags]

/-- What the conditions on a device, or on one parent, are compared with. The keys that have neither
a value nor a set, such as `TEST`, have one answer for each attribute and value. -/
structure Props where
  value : Key → Option Bytes → Bytes
  elements : Key → List Bytes
  answer : Key → Option Bytes → Bytes → Bool

/-- A device with its chain of parents -/
structure Device where
  own : Props
  parents : List Props

/-- How udev compares a pattern with a value: a pattern without `*`, `?`, `[` and `|` stands for
itself. -/
structure Matcher where
  isMatch : Bytes → Bytes → Bool
  literal : ∀ pat v, noPattern pat → (isMatch (cstr pat) v ↔ v = cstr pat)

variable (M : Matcher)

def Props.accepts (d : Props) (p : Pair) : Bool :=
  if p.key ∈ setKeys then (d.elements p.key).any (M.isMatch (cstr p.value))
  else if p.key ∈ valueKeys then M.isMatch (cstr p.value) (d.value p.key (p.attr.map cstr))
  else d.answer p.key (p.attr.map cstr) (cstr p.value)

/-- The condition that a pair with `==` or `!=` makes -/
def Props.holds (d : Props) (p : Pair) : Bool :=
  if p.op = .match_ then d.accepts M p else !d.accepts M p

/-- A device satisfies the match conditions of a rule; the other pairs impose none. -/
structure Device.Satisfies (d : Device) (ps : List Pair) : Prop where
  own : ∀ p ∈ ps, p.isOpMatch → p.key ∉ parentKeys → d.own.holds M p
  parent : (∃ p ∈ ps, p.isOpMatch ∧ p.key ∈ parentKeys) →
    ∃ q ∈ d.parents, ∀ p ∈ ps, p.isOpMatch → p.key ∈ parentKeys → q.holds M p

/-! ## Conditions that cannot both hold -/

/-- Two match conditions with the same key and attribute: `==` and `!=` with the same value, or `==`
with two values where there is only one. -/
def Genuine (p q : Pair) : Prop :=
  p.isOpMatch ∧ q.isOpMatch ∧ p.key = q.key ∧ sameAttr p q ∧
    (cstr p.value = cstr q.value ∧ p.op ≠ q.op ∨
      cstr p.value ≠ cstr q.value ∧ p.op = .match_ ∧ q.op = .match_ ∧ p.key ∈ valueKeys ∧
        noPattern p.value ∧ noPattern q.value)

variable {p q : Pair}

theorem sameAttr_map (h : sameAttr p q) : p.attr.map cstr = q.attr.map cstr := by
  unfold sameAttr at h
  split at h <;> simp_all

theorem isOpMatch_cases (h : p.isOpMatch) : p.op = .match_ ∨ p.op = .nomatch := of_decide_eq_true h

theorem Props.accepts_congr (d : Props) (hkey : p.key = q.key) (hattr : sameAttr p q)
    (hvalue : cstr p.value = cstr q.value) : d.accepts M p = d.accepts M q := by
  simp only [Props.accepts, hkey, hvalue, sameAttr_map hattr]

theorem not_mem_setKeys {k : Key} (h : k ∈ valueKeys) : k ∉ setKeys := by
  cases k <;> first | (simp [valueKeys] at h; done) | decide

theorem Props.accepts_literal (d : Props) (hkey : p.key = q.key) (hattr : sameAttr p q)
    (hk : p.key ∈ valueKeys) (hp : noPattern p.value) (hq : noPattern q.value)
    (h : d.accepts M p) (h' : d.accepts M q) : cstr p.value = cstr q.value := by
  have hk' : q.key ∈ valueKeys := hkey ▸ hk
  rw [Props.accepts, if_neg (not_mem_setKeys hk), if_pos hk, M.literal _ _ hp] at h
  rw [Props.accepts, if_neg (not_mem_setKeys hk'), if_pos hk', M.literal _ _ hq] at h'
  rw [← h, ← h', hkey, sameAttr_map hattr]

theorem Genuine.not_holds (h : Genuine p q) (d : Props) : ¬(d.holds M p ∧ d.holds M q) := by
  obtain ⟨hp, hq, hkey, hattr, h⟩ := h
  rintro ⟨h₁, h₂⟩
  rcases h with ⟨hvalue, hop⟩ | ⟨hvalue, hop, hop', hk, hpat, hpat'⟩
  · have := d.accepts_congr M hkey hattr hvalue
    rw [Props.holds] at h₁ h₂
    rcases isOpMatch_cases hp with hp | hp <;> rcases isOpMatch_cases hq with hq | hq <;> simp_all
  · rw [Props.holds, if_pos hop] at h₁
    rw [Props.holds, if_pos hop'] at h₂
    exact hvalue (d.accepts_literal M hkey hattr hk hpat hpat' h₁ h₂)

variable {ps : List Pair}

theorem Genuine.not_satisfies (h : Genuine p q) (hp : p ∈ ps) (hq : q ∈ ps) (d : Device) :
    ¬d.Satisfies M ps := by
  intro hsat
  obtain ⟨hpm, hqm, hkey, -⟩ := id h
  by_cases hk : p.key ∈ parentKeys
  · obtain ⟨e, -, he⟩ := hsat.parent ⟨p, hp, hpm, hk⟩
    exact h.not_holds M e ⟨he p hp hpm hk, he q hq hqm (hkey ▸ hk)⟩
  · exact h.not_holds M d.own ⟨hsat.own p hp hpm hk, hsat.own q hq hqm (hkey ▸ hk)⟩

/-! ## What is reported -/

/-- One of the two warnings about conflicts -/
def Report.isConflict : Report → Bool
  | .contradict .. | .conflict _ => true
  | _ => false

/-- A conflict is reported for the pairs of a rule. -/
def Reported (w : Settings) (ps : List Pair) : Bool :=
  (checkPairs w [] ps).any fun c => c.reports.any Report.isConflict

/-- A conflict of `p` with an earlier pair `q` is reported. -/
def conflicts (w : Settings) (p q : Pair) : Bool :=
  p.isOpMatch ∧ (contradicts w p q ∨ w.conflictMatch ∧ sameEntry p q ∧ p.op ≠ q.op)

variable {r : Report}

theorem mem_seq {cs : List Checked} (h : r ∈ (Checked.seq cs).reports) :
    ∃ c ∈ cs, r ∈ c.reports := by
  induction cs with
  | nil => cases h
  | cons c cs ih =>
    rw [Checked.seq] at h
    split_ifs at h
    · rcases mem_append.1 h with h | h
      · exact ⟨c, by simp, h⟩
      · obtain ⟨c', hc', hr⟩ := ih h
        exact ⟨c', mem_cons_of_mem _ hc', hr⟩
    · exact ⟨c, by simp, h⟩

def Checked.Quiet (c : Checked) : Prop := ∀ r ∈ c.reports, r.isConflict = false

theorem quiet_report (h : r.isConflict = false) (c : Bool) : (Checked.report c r).Quiet := by
  intro r' hr'
  cases c with
  | false => cases hr'
  | true =>
    obtain rfl := mem_singleton.1 hr'
    exact h

theorem quiet_of_nil {c : Checked} (h : c.reports = []) : c.Quiet := by
  intro r hr
  rw [h] at hr
  cases hr

theorem quiet_readAttr (h : r.isConflict = false) (p : Pair) (c : Bytes → Bool) :
    (Checked.readAttr p fun a => .report (c a) r).Quiet := by
  unfold Checked.readAttr
  split
  · exact quiet_report h _
  · exact quiet_of_nil rfl

theorem keyChecks_quiet (w : Settings) (p : Pair) : ∀ c ∈ keyChecks w p, c.Quiet := by
  have hnil : (Checked.seq []).Quiet := quiet_of_nil rfl
  have hno : (noAttr p).Quiet := quiet_report rfl _
  have hneeds : (needsAttr p).Quiet := quiet_report rfl _
  have hop : ∀ c p, (badOp p c).Quiet := fun c p => quiet_report rfl c
  cases hk : p.key <;> simp only [keyChecks, hk, forall_mem_cons, hno, hneeds, hop, true_and]
  case env =>
    refine ⟨quiet_report rfl _, ?_, by simp⟩
    split_ifs
    · exact hnil
    · exact quiet_readAttr rfl _ _
  case import_ =>
    refine ⟨quiet_readAttr rfl _ _, ?_, by simp⟩
    split_ifs
    · exact quiet_readAttr rfl _ _
    · exact hnil
  case const => exact ⟨quiet_readAttr rfl _ _, by simp⟩
  case run => exact ⟨quiet_readAttr rfl _ _, quiet_report rfl _, by simp⟩
  case name => exact ⟨quiet_report rfl _, quiet_report rfl _, quiet_report rfl _, by simp⟩
  all_goals first | (simp; done) | exact ⟨quiet_report rfl _, by simp⟩

theorem checkMultiGotoLabel_quiet (w : Settings) (earlier : List Pair) (p : Pair) :
    ∀ r ∈ checkMultiGotoLabel w earlier p, r.isConflict = false := by
  intro r hr
  unfold checkMultiGotoLabel at hr
  split_ifs at hr
  · obtain ⟨q, -, hq⟩ := exists_of_findSome?_eq_some (Option.mem_toList.1 hr)
    split_ifs at hq <;> cases hq <;> rfl
  · cases hr

variable {w : Settings} {earlier : List Pair}

/-- A conflict is reported for two pairs that conflict. -/
theorem checkMatchConditions_conflict
    (h : r ∈ checkMatchConditions w earlier p) (hr : r.isConflict) :
    ∃ q ∈ earlier, conflicts w p q := by
  by_cases hp : p.isOpMatch
  · simp only [checkMatchConditions, if_pos hp, mem_append] at h
    rcases h with (h | h) | h
    · obtain ⟨q, hq, rfl⟩ := mem_map.1 h
      obtain ⟨hq, hc⟩ := mem_filter.1 hq
      exact ⟨q, hq, decide_eq_true ⟨hp, .inl hc⟩⟩
    · generalize (if w.dupMatch then _ else _ : Nat) = dups at h
      cases dups with
      | zero => cases h
      | succ n =>
        obtain rfl := mem_singleton.1 h
        cases hr
    · cases hw : w.conflictMatch with
      | false => simp [hw] at h
      | true =>
        simp only [hw, if_true] at h
        split_ifs at h with hcount
        · cases h
        · obtain ⟨q, hq, hc⟩ := countP_pos_iff.1 (Nat.pos_of_ne_zero hcount)
          exact ⟨q, hq, decide_eq_true ⟨hp, .inr ⟨hw, of_decide_eq_true hc⟩⟩⟩
  · simp only [checkMatchConditions, if_neg hp, not_mem_nil] at h

theorem checkToken_conflict (h : r ∈ (checkToken w earlier p).reports) (hr : r.isConflict) :
    ∃ q ∈ earlier, conflicts w (processed p) q := by
  obtain ⟨c, hc, hrc⟩ := mem_seq h
  simp only [mem_append, mem_cons, not_mem_nil, or_false] at hc
  rcases hc with hc | rfl | rfl
  · exact absurd hr (by simp [keyChecks_quiet w p c hc r hrc])
  · exact checkMatchConditions_conflict hrc hr
  · exact absurd hr (by simp [checkMultiGotoLabel_quiet _ _ _ r hrc])

theorem checkPairs_conflict {c : Checked}
    (hc : c ∈ checkPairs w earlier ps) (hr : r ∈ c.reports) (hconf : r.isConflict) :
    ∃ q p, [q, p].Sublist (earlier ++ ps.map processed) ∧ conflicts w p q := by
  induction ps generalizing earlier with
  | nil => cases hc
  | cons p ps ih =>
    rw [checkPairs, mem_cons] at hc
    rcases hc with rfl | hc
    · obtain ⟨q, hq, hconf⟩ := checkToken_conflict hr hconf
      refine ⟨q, processed p, ?_, hconf⟩
      exact (singleton_sublist.2 hq).append (singleton_sublist.2 (by simp))
    · split_ifs at hc
      · obtain ⟨q, p', hsub, hconf⟩ := ih hc
        rw [append_assoc] at hsub
        exact ⟨q, p', hsub, hconf⟩
      · cases hc

theorem reported_conflicts (h : Reported w ps) :
    ∃ q p, [q, p].Sublist (ps.map processed) ∧ conflicts w p q := by
  obtain ⟨c, hc, hany⟩ := any_eq_true.1 h
  obtain ⟨r, hr, hconf⟩ := any_eq_true.1 hany
  exact checkPairs_conflict hc hr hconf

/-! ## What is reported for the wrong reason -/

/-- A match with the key, attribute and value of an earlier assignment, or two `==` with different
values for the elements of a set -/
def Misjudged (p q : Pair) : Prop :=
  p.isOpMatch ∧ p.key = q.key ∧ sameAttr p q ∧ (cstr p.value = cstr q.value ∧ q.isOpMatch = false ∨
      cstr p.value ≠ cstr q.value ∧ p.op = .match_ ∧ q.op = .match_ ∧ p.key ∈ setKeys ∧
        noPattern p.value ∧ noPattern q.value)

theorem mem_conflictKeys {k : Key} : k ∈ conflictKeys ↔ k ∈ valueKeys ∨ k ∈ setKeys := by
  cases k <;> decide

/-- What is reported is a pair of conditions that cannot both hold, or one of the two kinds that
can. -/
theorem conflicts_iff : conflicts w p q ↔ w.conflictMatch ∧ (Genuine p q ∨ Misjudged p q) := by
  have hmatch : ∀ r : Pair, r.op = .match_ → r.isOpMatch := fun r h => by simp [Pair.isOpMatch, h]
  simp only [conflicts, contradicts, sameEntry, decide_eq_true_eq]
  constructor
  · rintro ⟨hp,
      ⟨hkey, hvalue, hw, hop, hk, hq, hp', hop', hattr⟩ | ⟨hw, ⟨hkey, hvalue, hattr⟩, hop⟩⟩
    · have hop' : q.op = .match_ := hop' ▸ hop
      refine ⟨hw, ?_⟩
      rcases mem_conflictKeys.1 hk with hk | hk
      · exact .inl ⟨hp, hmatch q hop', hkey, hattr, .inr ⟨hvalue, hop, hop', hk, hp', hq⟩⟩
      · exact .inr ⟨hp, hkey, hattr, .inr ⟨hvalue, hop, hop', hk, hp', hq⟩⟩
    · refine ⟨hw, ?_⟩
      cases hqm : q.isOpMatch with
      | true => exact .inl ⟨hp, hqm, hkey, hattr, .inl ⟨hvalue, hop⟩⟩
      | false => exact .inr ⟨hp, hkey, hattr, .inl ⟨hvalue, hqm⟩⟩
  · rintro ⟨hw, ⟨hp, -, hkey, hattr, h⟩ | ⟨hp, hkey, hattr, h⟩⟩ <;> refine ⟨hp, ?_⟩
    · rcases h with ⟨hvalue, hop⟩ | ⟨hvalue, hop, hop', hk, hp', hq⟩
      · exact .inr ⟨hw, ⟨hkey, hvalue, hattr⟩, hop⟩
      · exact .inl ⟨hkey, hvalue, hw, hop, mem_conflictKeys.2 (.inl hk), hq, hp',
          hop.trans hop'.symm, hattr⟩
    · rcases h with ⟨hvalue, hqm⟩ | ⟨hvalue, hop, hop', hk, hp', hq⟩
      · -- one of the two is a match and the other is none
        have hop : p.op ≠ q.op := fun h => by simp [Pair.isOpMatch, ← h] at hp hqm; simp_all
        exact .inr ⟨hw, ⟨hkey, hvalue, hattr⟩, hop⟩
      · exact .inl ⟨hkey, hvalue, hw, hop, mem_conflictKeys.2 (.inr hk), hq, hp',
          hop.trans hop'.symm, hattr⟩

theorem exists_conflict_report (hq : q ∈ earlier) (h : conflicts w p q) :
    ∃ r ∈ checkMatchConditions w earlier p, r.isConflict := by
  obtain ⟨hp, h⟩ := of_decide_eq_true h
  simp only [checkMatchConditions, if_pos hp, mem_append]
  rcases h with h | ⟨hw, h⟩
  · exact ⟨_, .inl (.inl (mem_map_of_mem (mem_filter.2 ⟨hq, h⟩))), rfl⟩
  · have hpos : earlier.countP (fun q => sameEntry p q ∧ p.op ≠ q.op) ≠ 0 :=
      (countP_pos_iff.2 ⟨q, hq, decide_eq_true h⟩).ne'
    refine ⟨.conflict p, .inr ?_, rfl⟩
    rw [if_pos hw, if_neg hpos]
    exact mem_singleton_self _

theorem seq_reports {cs : List Checked} (h : ∀ c ∈ cs, c.finished) :
    (Checked.seq cs).reports = cs.flatMap (·.reports) := by
  induction cs with
  | nil => rfl
  | cons c cs ih => simp [Checked.seq, h c, ih fun c' hc' => h c' (mem_cons_of_mem c hc')]

/-- A pair that conflicts with an earlier one is reported, if the checks of its key are finished. -/
theorem checkToken_reports (hread : readsMissingAttr p = false) (hq : q ∈ earlier)
    (h : conflicts w (processed p) q) : (checkToken w earlier p).reports.any Report.isConflict := by
  have hfin := keyChecks_finished w p
  rw [hread] at hfin
  obtain ⟨r, hr, hconf⟩ := exists_conflict_report hq h
  refine any_eq_true.2 ⟨r, ?_, hconf⟩
  rw [checkToken, seq_reports (forall_mem_append.2 ⟨by simpa using hfin, by simp⟩)]
  exact mem_flatMap.2 ⟨⟨checkMatchConditions w earlier (processed p), true⟩, by simp, hr⟩

theorem checkPairs_reports (hread : ∀ p ∈ ps, readsMissingAttr p = false)
    (h : ∃ p ∈ ps.map processed, ∃ q ∈ earlier, conflicts w p q) :
    (checkPairs w earlier ps).any fun c => c.reports.any Report.isConflict := by
  induction ps generalizing earlier with
  | nil => simp at h
  | cons p ps ih =>
    obtain ⟨hp, hps⟩ := forall_mem_cons.1 hread
    rw [checkPairs, checkToken_finished, hp, Bool.not_false, if_pos rfl, any_cons, Bool.or_eq_true]
    obtain ⟨p', hp', q, hq, hconf⟩ := h
    rw [map_cons, mem_cons] at hp'
    rcases hp' with rfl | hp'
    · exact .inl (checkToken_reports hp hq hconf)
    · exact .inr (ih hps ⟨p', hp', q, mem_append_left _ hq, hconf⟩)

theorem reported_of_conflicts (hread : ∀ p ∈ ps, readsMissingAttr p = false)
    (hsub : [q, p].Sublist (ps.map processed)) (h : conflicts w p q) :
    (checkPairs w earlier ps).any fun c => c.reports.any Report.isConflict := by
  induction ps generalizing earlier with
  | nil => simp at hsub
  | cons p' ps ih =>
    obtain ⟨hp, hps⟩ := forall_mem_cons.1 hread
    rw [checkPairs, checkToken_finished, hp, Bool.not_false, if_pos rfl, any_cons, Bool.or_eq_true]
    rw [map_cons, cons_sublist_cons'] at hsub
    rcases hsub with hsub | ⟨rfl, hsub⟩
    · exact .inr (ih hps hsub)
    · exact .inr (checkPairs_reports hps ⟨p, singleton_sublist.1 hsub, _, by simp, h⟩)

/-! ## Soundness -/

/-- If a conflict is reported for a rule, no device satisfies its match conditions. -/
def SoundFor (w : Settings) (ps : List Pair) : Prop :=
  Reported w ps → ∀ d : Device, ¬d.Satisfies M (ps.map processed)

/-- If the warning is on, no match has the key, attribute and value of an assignment before it, and
no two `==` without patterns are about elements of a set. -/
def Clear (w : Settings) (ps : List Pair) : Prop :=
  w.conflictMatch → (ps.map processed).Pairwise fun q p => ¬Misjudged p q

theorem Clear.soundFor (h : Clear w ps) : SoundFor M w ps := by
  intro hrep d
  obtain ⟨q, p, hsub, hconf⟩ := reported_conflicts hrep
  obtain ⟨hw, hgen | hmis⟩ := conflicts_iff.1 hconf
  · exact hgen.not_satisfies M (hsub.subset (by simp)) (hsub.subset (by simp)) d
  · exact absurd hmis (pairwise_iff_forall_sublist.1 (h hw) hsub)

/-- The warnings about conflicts are right for every rule without misjudged pairs. In any other rule
that is checked to its end there is a warning for the wrong reason, which is right only if no device
satisfies the rule anyway. -/
theorem conflictReports_sound (w : Settings) : (∀ ps, Clear w ps → SoundFor M w ps) ∧
      ∀ ps, (∀ p ∈ ps, readsMissingAttr p = false) →
        (SoundFor M w ps ↔ Clear w ps ∨ ∀ d : Device, ¬d.Satisfies M (ps.map processed)) := by
  refine ⟨fun ps h => h.soundFor M, fun ps hread => ⟨fun hs => ?_, ?_⟩⟩
  · by_cases hclear : Clear w ps
    · exact .inl hclear
    · simp only [Clear, pairwise_iff_forall_sublist, not_forall, not_not] at hclear
      obtain ⟨hw, q, p, hsub, hmis⟩ := hclear
      exact .inr (hs (reported_of_conflicts hread hsub (conflicts_iff.2 ⟨hw, .inr hmis⟩)))
  · rintro (h | h)
    · exact h.soundFor M
    · exact fun _ => h

/-- Patterns that stand for themselves only -/
def plainMatcher : Matcher where
  isMatch pat v := v = pat
  literal pat v _ := by simp

instance (p q : Pair) : Decidable (Misjudged p q) := inferInstanceAs (Decidable (_ ∧ _))

/-- `NAME="a", DEVPATH=="/a", NAME=="b", DEVPATH!="/a"` -/
theorem conflictReports_sound_devpath :
    let w : Settings := ⟨true, true, true, true, false⟩
    let ps := linePairs .start .default
      (scan (text "NAME=\"a\", DEVPATH==\"/a\", NAME==\"b\", DEVPATH!=\"/a\"\n"))
    Reported w ps ∧ SoundFor plainMatcher w ps ∧
      (SoundFor plainMatcher w ps ↔ Clear w ps ∨ ∀ d : Device,
        ¬d.Satisfies plainMatcher (ps.map processed)) :=
  ⟨by decide +kernel, (conflictReports_sound plainMatcher _).1 _ fun _ => by decide +kernel,
    (conflictReports_sound plainMatcher _).2 _ (by decide +kernel)⟩

/-- `NAME="a", NAME=="a"` and `TAG=="a", TAG=="b"` are reported, and there are devices that satisfy
them. -/
theorem not_conflictReports_sound : ¬SoundFor plainMatcher ⟨true, true, true, true, false⟩
        (linePairs .start .default (scan (text "NAME=\"a\", NAME==\"a\"\n"))) ∧
      ¬SoundFor plainMatcher ⟨true, true, true, true, false⟩
        (linePairs .start .default (scan (text "TAG==\"a\", TAG==\"b\"\n"))) := by
  let d : Props := ⟨fun _ _ => [97], fun _ => [[97], [98]], fun _ _ _ => false⟩
  refine ⟨fun h => h (by decide +kernel) ⟨d, []⟩ ⟨by decide +kernel, by decide +kernel⟩,
    fun h => h (by decide +kernel) ⟨d, []⟩ ⟨by decide +kernel, by decide +kernel⟩⟩

end MakeInitrd.Udev
