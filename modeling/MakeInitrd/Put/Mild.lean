import MakeInitrd.Put.Rounds

/-!
# Steps that fail for a parent or for what is there

Here the destination may hold anything and files may lead to the same place. The calls of a run are
assumed to fail in no other way than for a missing parent or because there is something already
(`mild`). What a thread can do then is said by `Call` and `Control`: the program does not exit in
the middle of a round, and a file that is left without a mark cannot be installed as things are
(`Setup.Vain`). The exception is a hard link: `install_hardlink` gives up the whole run when the
parent of the new name is missing, so `linkPlaced` is needed too.
-/

namespace MakeInitrd.Put

open Posix CMem List

/-- The call succeeds or fails with one of these errors. -/
def onlyFails {α : Type} (es : List Errno) : Except Errno α → Bool
  | .ok _ => true
  | .error e => e ∈ es

/-- The next call of the thread succeeds, or fails because a parent is missing or because there is
something already; and the permissions can be applied. -/
def mild (cfg : Setup) (s : State) (l : Nat × Choice) : Bool :=
  match s.job l.1 with
  | some (p, .remove _) => onlyFails [.noent] (s.fs.remove cfg.cwd (cfg.path p) (l.2 = .empty))
  | some (p, .make) => onlyFails [.noent, .exist] (cfg.make s.fs p)
  | some (p, .openSource) => ((s.fs.resolve cfg.cwd p.src).toOption.bind s.fs.names).isSome
  | some (p, .creat _) =>
    onlyFails [.noent] (s.fs.creat cfg.cwd (cfg.path p) (cfg.node (.reg []) p.stat.perm))
  | some (p, .link q) =>
    l.2 ≠ .refused && onlyFails (if cfg.slot s.fs p = .error .noent then [.noent] else [.exist])
        (s.fs.link cfg.cwd (cfg.path q) (cfg.path p))
  | some (_, .access) | some (_, .allocate ..) | some (_, .copy ..) => true
  | none =>
    match s.phase with
    | .hardlinks [] =>
      s.count ≠ s.prevInstalled || s.count < cfg.files.length ||
        (cfg.permissionOrder.foldlM (cfg.applyPermissions s.installed) s.fs).isSome
    | _ => true

/-- When `install_hardlink` calls `link`, the parent of the new name is there. -/
def linkPlaced (cfg : Setup) (s : State) (l : Nat × Choice) : Bool :=
  match s.job l.1 with
  | some (p, .link _) => cfg.slot s.fs p ≠ .error .noent
  | _ => true

/-! ## Files that cannot be installed -/

/-- An attempt to install the file fails: its target is not known, its place cannot be looked up, or
it is a regular file behind a symlink that leads nowhere. -/
def Setup.Vain (cfg : Setup) (fs : Fs) (p : Item) : Prop :=
  p.stat.type = .lnk ∧ p.symlink = none ∨ (∀ l, cfg.slot fs p ≠ .ok l) ∨
    p.stat.type = .reg ∧ cfg.force = false ∧ (∀ l, fs.resolve cfg.cwd (cfg.path p) ≠ .ok l) ∧
      ∃ e, fs.creat cfg.cwd (cfg.path p) (cfg.node (.reg []) p.stat.perm) = .error e

/-- There is nothing at the place of the file. -/
def Setup.Empty (cfg : Setup) (fs : Fs) (p : Item) : Prop :=
  ∀ l, cfg.slot fs p = .ok l → fs.names l = none

/-- The type of a file fits the call that is made for it. -/
def Stage.Typed (cfg : Setup) (p : Item) : Stage → Prop
  | .remove none => cfg.force ∧ p.stat.type ≠ .dir
  | .remove (some _) => cfg.force ∧ p.stat.type = .reg
  | .make => p.stat.type ≠ .reg
  | .copy _ _ c => p.stat.type = .reg ∧ c.Within p.size
  | .link _ | .access | .openSource | .creat _ | .allocate .. => p.stat.type = .reg

/-- What the calls made before tell about the place of a file. -/
def Stage.Knows (cfg : Setup) (fs : Fs) (p : Item) : Stage → Prop
  | .access => cfg.force → cfg.Empty fs p
  | .openSource | .creat _ =>
    (cfg.force → cfg.Empty fs p) ∧
      (cfg.force = false → ∀ l, fs.resolve cfg.cwd (cfg.path p) ≠ .ok l)
  | _ => True

/-- The file is installed by `install_file`. -/
def Stage.direct : Stage → Bool
  | .remove (some _) | .link _ => false
  | _ => true

section
variable {cfg : Setup} {fs fs₀ : Fs} {s s' : State} {jobs t : Nat} {p q : Item}
    {stage stage' : Stage}
  {l l' : Loc} {c : Choice} {ph : Phase}

theorem body?_erase {b : Body} (hl : l ≠ []) (h : (fs.erase l hl).body? l' = some b) :
    fs.body? l' = some b ∧ ¬l <+: l' := by
  unfold Fs.body? at h ⊢
  obtain ⟨i, hi, hb⟩ := Option.map_eq_some_iff.1 h
  change (if l <+: l' then none else fs.names l') = some i at hi
  split at hi
  · cases hi
  · next hnot =>
    rw [hi]
    exact ⟨congrArg some hb, hnot⟩

theorem below_erase (fs : Fs) (hl : l ≠ []) : (fs.erase l hl).Below fs :=
  fun _ b hb => ⟨b, (body?_erase hl hb).1, .refl b⟩

/-- With `--force` what was tried in vain stays so when objects are removed. -/
theorem Setup.Vain.erase (hforce : cfg.force = true) (h : cfg.Vain fs p) (hl : l ≠ []) :
    cfg.Vain (fs.erase l hl) p := by
  rcases h with h | h | ⟨-, hnot, -⟩
  · exact .inl h
  · exact .inr (.inl fun l' hl' => h l' ((below_erase fs hl).slot hl'))
  · cases hforce.symm.trans hnot

theorem Setup.Empty.erase (h : cfg.Empty fs p) (hl : l ≠ []) : cfg.Empty (fs.erase l hl) p := by
  intro l' hl'
  show (if l <+: l' then none else fs.names l') = none
  rw [h l' ((below_erase fs hl).slot hl'), ite_self]

theorem Stage.Knows.erase (hforce : cfg.force = true) (h : stage.Knows cfg fs p) (hl : l ≠ []) :
    stage.Knows cfg (fs.erase l hl) p := by
  cases stage with
  | access => exact fun _ => (h hforce).erase hl
  | openSource | creat =>
    exact ⟨fun _ => (h.1 hforce).erase hl, fun hnot => nomatch hforce.symm.trans hnot⟩
  | _ => trivial

theorem creat_error_of_slot {x : Inode} (h : ∀ l, cfg.slot fs p ≠ .ok l) :
    ∃ e, fs.creat cfg.cwd (cfg.path p) x = .error e := by
  cases hslot : cfg.slot fs p with
  | ok l => exact absurd hslot (h l)
  | error e =>
    change fs.slot cfg.cwd (cfg.path p) = _ at hslot
    refine ⟨e, ?_⟩
    unfold Fs.creat Fs.place
    rw [hslot]

theorem creat_ne_noent {x : Inode} (hslot : cfg.slot fs p = .ok l) (hnone : fs.names l = none) :
    fs.creat cfg.cwd (cfg.path p) x ≠ .error .noent := by
  change fs.slot cfg.cwd (cfg.path p) = _ at hslot
  have hbody : fs.body? l = none := fs.body?_eq_none.2 hnone
  unfold Fs.creat Fs.place
  rw [hslot]
  simp only [hbody, hnone]
  split <;> simp

theorem typed_first (p : Item) : (Setup.first p).Typed cfg p := by
  unfold Setup.first
  split
  · next h => exact h
  · next h => exact h

theorem typed_installFile (p : Item) : (cfg.installFile p).Typed cfg p := by
  unfold Setup.installFile
  split
  · next h => exact h
  · exact typed_first p

theorem direct_first (p : Item) : (Setup.first p).direct = true := by
  unfold Setup.first
  split <;> rfl

theorem direct_installFile (p : Item) : (cfg.installFile p).direct = true := by
  unfold Setup.installFile
  split
  · rfl
  · exact direct_first p

theorem knows_first (h : cfg.force → p.stat.type ≠ .dir → cfg.Empty fs p) :
    (Setup.first p).Knows cfg fs p := by
  unfold Setup.first
  split
  · next hreg => exact fun hforce => h hforce (hreg ▸ nofun)
  · trivial

theorem knows_installFile (p : Item) : (cfg.installFile p).Knows cfg fs p := by
  unfold Setup.installFile
  split
  · trivial
  · next hnot => exact knows_first fun hforce hdir => absurd ⟨hforce, hdir⟩ hnot

theorem slot_of_makeObject {cwd : Loc} {path : Path} {x : Inode}
    (h : fs.makeObject cwd path x = .error .noent) (l : Loc) : fs.slot cwd path ≠ .ok l := by
  intro hslot
  unfold Fs.makeObject at h
  rw [hslot] at h
  dsimp only at h
  split at h
  · cases h
  · split at h <;> cases h

theorem vain_of_make (h : cfg.make s.fs p = .error .noent) : cfg.Vain s.fs p := by
  unfold Setup.make at h
  cases htype : p.stat.type <;> simp only [htype] at h
  case reg => cases h
  case lnk =>
    cases hlink : p.symlink with
    | none => exact .inl ⟨htype, hlink⟩
    | some target =>
      rw [hlink] at h
      exact .inr (.inl (slot_of_makeObject h))
  case sock =>
    split at h
    · unfold Fs.bindSocket at h
      split at h
      · cases h
      · exact .inr (.inl (slot_of_makeObject h))
    · cases h
  all_goals exact .inr (.inl (slot_of_makeObject h))

/-- Where a target is known and there is no place, nothing is made and nothing is in the way. -/
theorem make_of_vain (h : cfg.Vain fs p) (hreg : p.stat.type ≠ .reg) :
    ∃ e, cfg.make fs p = .error e ∧ e ≠ .exist := by
  have hobject (hslot : ∀ l, cfg.slot fs p ≠ .ok l) (x : Inode) :
      ∃ e, fs.makeObject cfg.cwd (cfg.path p) x = .error e ∧ e ≠ .exist := by
    cases hs : cfg.slot fs p with
    | ok l => exact absurd hs (hslot l)
    | error e =>
      refine ⟨e, Fs.makeObject_error hs, ?_⟩
      rcases Fs.slot_error hs with rfl | rfl | rfl <;> exact nofun
  unfold Setup.make
  rcases h with ⟨hlnk, hnone⟩ | hslot | ⟨hreg', -⟩
  · simp only [hlnk, hnone]
    exact ⟨_, rfl, nofun⟩
  · cases htype : p.stat.type <;> simp only
    case reg => exact absurd htype hreg
    case lnk =>
      cases p.symlink with
      | none => exact ⟨_, rfl, nofun⟩
      | some target => exact hobject hslot _
    case sock =>
      split
      · obtain ⟨e, he, hne⟩ := hobject hslot (cfg.node .sock 0o777)
        refine ⟨e, ?_, hne⟩
        unfold Fs.bindSocket
        rw [he]
        cases e <;> first | rfl | exact absurd rfl hne
      · exact ⟨_, rfl, nofun⟩
    all_goals exact hobject hslot _
  · exact absurd hreg' hreg

/-! ## Steps -/

inductive Call (cfg : Setup) (s : State) (t : Nat) (p : Item) : Stage → State → Prop
  | removed {target : Option Item} {l : Loc} (hl : l ≠ []) : cfg.force →
    cfg.slot s.fs p = .ok l → Call cfg s t p (.remove target)
      ({ s with fs := s.fs.erase l hl }.goto t p (Setup.afterRemove p target))
  | nothing {target : Option Item} : cfg.Empty s.fs p →
    Call cfg s t p (.remove target) (s.goto t p (Setup.afterRemove p target))
  | parentless : cfg.Vain s.fs p → Call cfg s t p .make (s.leave t)
  | absent : (∀ l, s.fs.resolve cfg.cwd (cfg.path p) ≠ .ok l) →
    Call cfg s t p .access (s.goto t p .openSource)
  | source {sfd : Nat} : Call cfg s t p .openSource (s.goto t p (.creat sfd))
  | uncreated {sfd : Nat} :
    s.fs.creat cfg.cwd (cfg.path p) (cfg.node (.reg []) p.stat.perm) = .error .noent →
    Call cfg s t p (.creat sfd) (s.leave t)
  | created {sfd dfd : Nat} {fs : Fs} :
    Call cfg s t p (.creat sfd) ({ s with fs := fs }.goto t p (.allocate sfd dfd))
  | allocated {sfd dfd : Nat} {fs : Fs} : Call cfg s t p (.allocate sfd dfd)
    ({ s with fs := fs }.goto t p (.copy sfd dfd (startCopy s.methods p.size)))
  | copying {sfd dfd : Nat} {copy copy' : Copy} {src dst dst' : Bytes} {m : Methods}
    {a : Answer} {fs : Fs} :
    copy.step src dst p.size s.methods a = some (m, dst', some copy') →
    Call cfg s t p (.copy sfd dfd copy)
      ({ s with fs := fs, methods := m }.goto t p (.copy sfd dfd copy'))
  | marked {stage : Stage} {fs : Fs} {m : Methods} :
    Call cfg s t p stage ({ s with fs := fs, methods := m }.finish t p)

theorem mem_of_onlyFails {α : Type} {es : List Errno} {r : Except Errno α} {e : Errno}
    (h : onlyFails es r) (hr : r = .error e) : e ∈ es := by
  rw [hr] at h
  exact of_decide_eq_true h

/-- What a call of a thread can come to -/
theorem call_cases (hmild : mild cfg s (t, c)) (hplaced : linkPlaced cfg s (t, c))
    (htyped : stage.Typed cfg p) (hjob : s.job t = some (p, stage))
    (hstep : callStep cfg s t p c stage = some s') : Call cfg s t p stage s' := by
  unfold mild at hmild
  unfold linkPlaced at hplaced
  rw [hjob] at hmild hplaced
  unfold callStep at hstep
  cases stage with
  | remove target =>
    dsimp only at hmild hstep
    cases hr : s.fs.remove cfg.cwd (cfg.path p) (c = .empty) with
    | ok fs =>
      rw [hr] at hstep
      cases hstep
      unfold Fs.remove at hr
      split at hr
      · cases hr
      · next l hslot =>
        split at hr
        · cases hr
        · split at hr
          · next h =>
            cases hr
            exact .removed h.1 (by cases target <;> exact htyped.1) hslot
          · cases hr
    | error e =>
      cases mem_singleton.1 (mem_of_onlyFails hmild hr)
      rw [hr] at hstep
      cases hstep
      refine .nothing fun l hslot => ?_
      change s.fs.slot cfg.cwd (cfg.path p) = _ at hslot
      unfold Fs.remove at hr
      rw [hslot] at hr
      dsimp only at hr
      split at hr
      · next hnone => exact s.fs.body?_eq_none.1 hnone
      · split at hr <;> cases hr
  | make =>
    dsimp only at hmild hstep
    cases hr : cfg.make s.fs p with
    | ok fs =>
      rw [hr] at hstep
      cases hstep
      exact .marked
    | error e =>
      have he := mem_of_onlyFails hmild hr
      rw [hr] at hstep
      simp only [mem_cons, not_mem_nil, or_false] at he
      rcases he with rfl | rfl
      · cases hstep
        exact .parentless (vain_of_make hr)
      · cases hstep
        exact .marked
  | access =>
    dsimp only at hstep
    cases hr : s.fs.resolve cfg.cwd (cfg.path p) with
    | ok l =>
      rw [hr] at hstep
      cases hstep
      exact .marked
    | error e =>
      rw [hr] at hstep
      cases hstep
      exact .absent fun l hl => by cases hr.symm.trans hl
  | openSource =>
    dsimp only at hmild hstep
    obtain ⟨sfd, hsfd⟩ := Option.isSome_iff_exists.1 hmild
    rw [hsfd] at hstep
    cases hstep
    exact .source
  | creat sfd =>
    dsimp only at hmild hstep
    cases hr : s.fs.creat cfg.cwd (cfg.path p) (cfg.node (.reg []) p.stat.perm) with
    | ok r =>
      rw [hr] at hstep
      cases hstep
      exact .created
    | error e =>
      cases mem_singleton.1 (mem_of_onlyFails hmild hr)
      rw [hr] at hstep
      cases hstep
      exact .uncreated hr
  | allocate sfd dfd =>
    cases hstep
    exact .allocated
  | copy sfd dfd copy =>
    cases c with
    | answer a =>
      dsimp only at hstep
      obtain ⟨⟨m, dst, next⟩, hcopy, hstep⟩ := Option.bind_eq_some_iff.1 hstep
      cases next with
      | some copy' =>
        cases hstep
        exact .copying hcopy
      | none =>
        cases hstep
        exact .marked
    | _ => cases hstep
  | link q =>
    dsimp only at hmild hplaced hstep
    rw [Bool.and_eq_true, decide_eq_true_eq] at hmild
    rw [decide_eq_true_eq] at hplaced
    rw [if_neg hmild.1] at hstep
    cases hr : s.fs.link cfg.cwd (cfg.path q) (cfg.path p) with
    | ok fs =>
      rw [hr] at hstep
      cases hstep
      exact .marked
    | error e =>
      have he := mem_of_onlyFails hmild.2 hr
      rw [if_neg hplaced] at he
      cases mem_singleton.1 he
      rw [hr] at hstep
      cases hstep
      exact .marked

/-- What a thread can do that installs nothing. -/
inductive Control (cfg : Setup) (jobs : Nat) (s : State) (t : Nat) : State → Prop
  | pass {p : Item} {ph : Phase} : s.phase.pop = some (p, ph) → p ∈ s.installed →
    Control cfg jobs s t { s with phase := ph }
  | take {p : Item} {ph : Phase} : s.phase.TakesPart cfg jobs t → s.phase.pop = some (p, ph) →
    p ∉ s.installed → (∀ q, (p, q) ∈ cfg.collector.hardlinks → q ∉ s.installed) →
    Control cfg jobs s t ({ s with phase := ph }.goto t p (cfg.installFile p))
  | link {p q : Item} {ph : Phase} : s.phase.TakesPart cfg jobs t → s.phase.pop = some (p, ph) →
    p ∉ s.installed → p.stat.type = .reg →
    Control cfg jobs s t
      ({ s with phase := ph }.goto t p (if cfg.force then .remove (some q) else .link q))
  /-- a hard link with the path of its target -/
  | same {p : Item} {ph : Phase} : s.phase.TakesPart cfg jobs t → s.phase.pop = some (p, ph) →
    p ∉ s.installed → p.stat.type = .reg → Control cfg jobs s t ({ s with phase := ph }.finish t p)
  | enter {ph : Phase} : (∀ t, s.job t = none) →
    s.phase = .dirs [] ∧ ph = .pool cfg.collector.nonDirs ∨
      s.phase = .pool [] ∧ ph = .hardlinks cfg.collector.hardlinks →
    Control cfg jobs s t { s with phase := ph }
  | ended : (∀ t, s.job t = none) → s.phase = .hardlinks [] → Control cfg jobs s t (endRound cfg s)

theorem not_hardlink (hnodup : cfg.files.Nodup)
    (hp : p ∈ cfg.collector.dirs ++ cfg.collector.nonDirs)
    (q : Item) : (p, q) ∉ cfg.collector.hardlinks := by
  have hall := (classified cfg).perm.nodup_iff.2 hnodup
  exact fun hq => disjoint_of_nodup_append hall hp (mem_map_of_mem hq)

theorem target_unique (hnodup : cfg.files.Nodup) {q' : Item} (hq : (p, q) ∈ cfg.collector.hardlinks)
    (hq' : (p, q') ∈ cfg.collector.hardlinks) : q' = q := by
  have hall := ((classified cfg).perm.nodup_iff.2 hnodup).of_append_right
  have heq := inj_on_of_nodup_map hall hq' hq rfl
  exact congrArg Prod.snd heq

/-- What a decision between two calls can come to -/
theorem control_cases (hnodup : cfg.files.Nodup) (htidy : Tidy cfg jobs s) (hidle : s.job t = none)
    (hstep : controlStep cfg s t jobs = some s') : Control cfg jobs s t s' := by
  cases decision_of_controlStep htidy hidle hstep with
  | file hmem hpart hpop =>
    split
    · next hp => exact .pass hpop hp
    · next hp => exact .take hpart hpop hp fun q hq => absurd hq (not_hardlink hnodup hmem q)
  | hardlink hmem hpart hpop =>
    split
    · next hp => exact .pass hpop hp
    · next hp =>
      have hreg := ((classified cfg).hardlinks _ _ hmem).1
      unfold installHardlink
      split
      · next hq =>
        refine .take hpart hpop hp fun q' hq' => ?_
        rwa [target_unique hnodup hmem hq']
      · split
        · exact .same hpart hpop hp hreg
        · exact .link hpart hpop hp hreg
  | enter hall hph => exact .enter hall hph
  | ended hall hphase => exact .ended hall hphase

end

end MakeInitrd.Put
