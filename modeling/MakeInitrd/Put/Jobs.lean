import MakeInitrd.Put.Faithful

/-!
# Threads and their order

What the installation finds missing now it may find later, and what it finds stays where it is. So
two runs on the same tree make the same objects at the same places, in whatever order their threads
do it, as long as no two files meet (`jobs_agree`). If two files lead to one place, which of them is
there in the end depends on the order of the threads.
-/

namespace MakeInitrd.Put

open Posix CMem

/-- A directory has one name. -/
def OneName (fs : Fs) : Prop :=
  ∀ l l' i, fs.names l = some i → fs.names l' = some i → fs.body? l = some .dir → l = l'

/-- What a step has to find for the order not to matter: no two files lead to the same place, only
directories lead to what was there before, and the call of the thread does not end the program. So
`--force` finds nothing to remove: what the removal of a symlink does to the lookups of the other
threads is left out. -/
structure Undisturbed (cfg : Setup) (fs₀ : Fs) (s : State) (t : Nat) : Prop where
  clear : Clear cfg fs₀ s.fs
  calm : ¬Fatal cfg s t

/-- Every file is installed or has no parent directory. -/
def Decided (cfg : Setup) (fs₀ fs : Fs) : Prop :=
  ∀ p ∈ cfg.files, cfg.slot fs p = .error .noent ∨ ∃ l i, PlacedAt cfg fs₀ fs p l i

section
variable {cfg : Setup} {fs₀ fs fs' : Fs} {jobs jobs' t : Nat} {s s' a b : State}
    {p q : Item} {l : Loc}
  {i : Nat}

theorem PlacedAt.object (h : PlacedAt cfg fs₀ fs p l i) (hfresh : fs₀.names l = none) :
    (fs.inodes i).object = cfg.copyOf fs₀ p := by
  rcases h.made with ⟨-, -, hmade⟩ | ⟨hold, -⟩
  · exact hmade
  · cases hfresh.symm.trans hold

theorem Over.slot_of_not_installed (h : Over cfg fs₀ jobs s) (hp : p ∈ cfg.files)
    (hnot : p ∉ s.installed) : cfg.slot s.fs p = .error .noent := by
  refine h.inRound.tried ⟨h.count, fun t q stage hq =>
    nomatch (h.idle t).symm.trans hq⟩ p hp hnot ?_
  rintro (hrest | ⟨t, stage, hq⟩)
  · rw [h.phase] at hrest
    cases hrest
  · cases (h.idle t).symm.trans hq

theorem Over.decided (h : Over cfg fs₀ jobs s) : Decided cfg fs₀ s.fs := by
  intro p hp
  by_cases hinst : p ∈ s.installed
  · exact .inr (h.inRound.laid.placed p hinst)
  · exact .inl (h.slot_of_not_installed hp hinst)

section
variable (h : Decided cfg fs₀ fs') (hbelow : fs.Below fs') (hp : p ∈ cfg.files)
  (hslot : cfg.slot fs p = .ok l)
include h hbelow hp hslot

theorem Decided.placed : ∃ i, PlacedAt cfg fs₀ fs' p l i := by
  have hslot' : cfg.slot fs' p = .ok l := hbelow.slot hslot
  rcases h p hp with hnone | ⟨l', i, hplaced⟩
  · cases hnone.symm.trans hslot'
  · cases hplaced.slot.symm.trans hslot'
    exact ⟨i, hplaced⟩

theorem Decided.body (hfresh : fs₀.names l = none) :
    fs'.body? l = some (cfg.copyOf fs₀ p).body := by
  obtain ⟨i, hplaced⟩ := h.placed hbelow hp hslot
  unfold Fs.body?
  rw [hplaced.names, Option.map_some]
  exact congrArg (fun o => some o.body) (hplaced.object hfresh)

end

theorem below_create {x : Inode} {b' : Body} (h : fs.Below fs') (hl : fs.Free l)
    (hb' : fs'.body? l = some b') (halike : x.body.Alike b') : (fs.create l x hl).Below fs' := by
  intro l₁ b₁ hb₁
  by_cases hne : l₁ = l
  · subst hne
    obtain ⟨i, hi, rfl⟩ := Option.map_eq_some_iff.1 hb₁
    rw [Fs.names_create_self] at hi
    cases hi
    rw [Fs.inodes_create_self]
    exact ⟨b', hb', halike⟩
  · refine h l₁ b₁ ?_
    obtain ⟨i, hi, rfl⟩ := Option.map_eq_some_iff.1 hb₁
    rw [Fs.names_create_of_ne hl hne] at hi
    unfold Fs.body?
    rw [hi, Option.map_some, Fs.inodes_create_of_lt hl (fs.lt_next l₁ i hi)]

theorem below_addName {b' : Body} (h : fs.Below fs') (hl : fs.Free l) (hi : i < fs.next)
    (hb' : fs'.body? l = some b') (halike : (fs.inodes i).body.Alike b') :
    (fs.addName l i hl hi).Below fs' := by
  have hbody (j : Nat) : ((fs.addName l i hl hi).inodes j).body = (fs.inodes j).body :=
    congrArg Object.body (Fs.object_addName hl hi j)
  intro l₁ b₁ hb₁
  obtain ⟨j, hj, rfl⟩ := Option.map_eq_some_iff.1 hb₁
  rw [hbody]
  by_cases hne : l₁ = l
  · subst hne
    rw [Fs.names_addName_self] at hj
    cases hj
    exact ⟨b', hb', halike⟩
  · rw [Fs.names_addName_of_ne hl hi hne] at hj
    exact h l₁ _ (by rw [Fs.body?, hj, Option.map_some])

theorem below_setContent (h : fs.Below fs') (dfd : Nat) (c : Bytes) :
    (fs.setContent dfd c).Below fs' := by
  have hback : (fs.setContent dfd c).Below fs := by
    intro l b hb
    obtain ⟨i, hi, rfl⟩ := Option.map_eq_some_iff.1 hb
    refine ⟨_, by rw [Fs.body?, show fs.names l = some i from hi, Option.map_some], ?_⟩
    exact ((Fs.grows_setContent dfd c).alike i (fs.lt_next l i hi)).symm
  exact hback.trans h

theorem copyOf_congr (hreg : p.stat.type = .reg) (h : q.stat = p.stat) :
    cfg.copyOf fs₀ q = cfg.copyOf fs₀ p := by
  unfold Setup.copyOf
  rw [h, hreg]

/-- An event makes nothing that another finished run does not have. -/
theorem below_of_event (hround : InRound cfg fs₀ jobs s) (hdecided : Decided cfg fs₀ fs)
    (hbelow : s.fs.Below fs) (hevent : Event cfg fs₀ jobs s t s')
    (hround' : InRound cfg fs₀ jobs s') :
    s'.fs.Below fs := by
  have hlaid := hround.laid
  cases hevent with
  | advance | missing | skip | fatal | pass | take | enter => exact hbelow
  | @made p stage l x hjob hdfd hslot hl hx =>
    obtain ⟨hp, -⟩ := hround.tidy.busy t p stage hjob
    have hbody : x.body = (cfg.copyOf fs₀ p).body := congrArg Object.body hx
    refine below_create hbelow hl (hdecided.body hbelow hp hslot (hlaid.fresh hl)) ?_
    rw [hbody]
    exact .refl _
  | @opened p stage l x hjob hdfd hreg hslot hl hx =>
    obtain ⟨hp, -⟩ := hround.tidy.busy t p stage hjob
    have hbody : x.body = .reg [] := congrArg Object.body hx
    refine below_create hbelow hl (hdecided.body hbelow hp hslot (hlaid.fresh hl)) ?_
    unfold Setup.copyOf
    rw [hbody, hreg]
    trivial
  | @copying p stage dfd l dst dst' fs' methods c hjob hdfd hopen hfs hinv =>
    rcases hfs with ⟨rfl, -⟩ | rfl
    · exact hbelow
    · exact below_setContent hbelow dfd dst'
  | copied hjob hdfd hreg hopen => exact below_setContent hbelow _ _
  | @linked p q l l₀ i hi hjob hq hreg hstat hplaced hslot hl =>
    obtain ⟨hp, -⟩ := hround.tidy.busy t p _ hjob
    refine below_addName hbelow hl hi (hdecided.body hbelow hp hslot (hlaid.fresh hl)) ?_
    rcases hplaced.made with ⟨-, -, hmade⟩ | ⟨-, hdir, -⟩
    · have hbody : (s.fs.inodes i).body = (cfg.copyOf fs₀ q).body := congrArg Object.body hmade
      rw [hbody, copyOf_congr hreg hstat]
      exact .refl _
    · rw [hstat, hreg] at hdir
      cases hdir
  | ended hidle hphase =>
    by_cases hcount : s.count = s.prevInstalled
    · exact absurd hround'.running (endRound_not_running hcount)
    · unfold endRound
      rw [if_pos hcount]
      exact hbelow

/-- What `apply_permissions` makes of an object. -/
def Setup.ownObject (cfg : Setup) (p : Item) (o : Object) : Object :=
  { o with
    uid := if cfg.privileged then p.stat.uid else o.uid
    gid := if cfg.privileged then p.stat.gid else o.gid
    perm := if p.stat.type = .lnk then o.perm else p.stat.perm }

theorem Laid.names_of_not_slot (h : Laid cfg fs₀ s) (hi : s.fs.names l = some i)
    (hl : ∀ p ∈ cfg.files, cfg.slot s.fs p ≠ .ok l) : fs₀.names l = some i := by
  cases hold : fs₀.names l with
  | none =>
    obtain ⟨p, hp, hslot, -⟩ := h.owned l i hi hold
    exact absurd hslot (hl p hp)
  | some j => exact (h.grows.names l j hold).symm.trans hi

theorem Over.endRound_uninstalled (h : Over cfg fs₀ jobs s) (hcount : s.count < cfg.files.length) :
    endRound cfg s = { s with phase := .uninstalled } := by
  rcases endRound_cases h.count with ⟨-, heq⟩ | ⟨hle, -⟩
  · exact heq
  · exact absurd hcount (not_lt.2 hle)

/-- In the end the files lead to places with their attributes, and all other places are as they
were. -/
theorem Over.object_endRound (h : Over cfg fs₀ jobs s) (hclear : Clear cfg fs₀ s.fs)
    (hone : OneName fs₀) (hcount : cfg.files.length ≤ s.count) :
    (endRound cfg s).phase = .done ∧ (∀ p ∈ cfg.files, ∀ l, cfg.slot s.fs p = .ok l →
        (endRound cfg s).fs.object? l = (s.fs.object? l).map (cfg.ownObject p)) ∧
      ∀ l, (∀ p ∈ cfg.files, cfg.slot s.fs p ≠ .ok l) → (endRound cfg s).fs.object? l =
        s.fs.object? l := by
  have hplace : cfg.OnePlace fs₀ s.fs := fun p q l l' i hp hq hpl hql hi hi' =>
    hone l l' i hi hi' (hclear.untouched p l hp hpl (hi ▸ nofun)).2
  obtain ⟨fs', heq, hnames, hbody, hfinal, hother⟩ := h.final hclear hplace hcount
  rw [heq]
  refine ⟨rfl, fun p hp l hslot => ?_, fun l hl => ?_⟩
  · obtain ⟨l', i, hplaced, hinode⟩ := hfinal p hp
    cases hplaced.slot.symm.trans hslot
    simp only [Fs.object?, hnames, hplaced.names, Option.map_some, hinode]
    rfl
  · cases hi : s.fs.names l with
    | none => simp only [Fs.object?, hnames, hi, Option.map_none]
    | some i =>
      have hold : fs₀.names l = some i := h.inRound.laid.names_of_not_slot hi hl
      have hnot (p : Item) (hp : p ∈ cfg.files) : cfg.inode? s.fs p ≠ some i := by
        intro hpi
        obtain ⟨l', i', hplaced, -⟩ := hfinal p hp
        cases hplaced.inode?.symm.trans hpi
        rcases hplaced.made with ⟨-, hnew, -⟩ | ⟨hold', -, hdir⟩
        · exact absurd (fs₀.lt_next l i hold) (not_lt.2 hnew)
        · cases hone l' l i hold' hold hdir
          exact hl p hp hplaced.slot
      simp only [Fs.object?, hnames, hi, Option.map_some, hother i hnot]

/-! ## Two runs -/

/-- The last rounds of two runs, each of which has what the other has. -/
structure Meet (cfg : Setup) (fs₀ : Fs) (jobs jobs' : Nat) (a b : State) : Prop where
  left : Over cfg fs₀ jobs a
  right : Over cfg fs₀ jobs' b
  le : a.fs.Below b.fs
  ge : b.fs.Below a.fs

section
variable (h : Meet cfg fs₀ jobs jobs' a b)
include h

theorem Meet.symm : Meet cfg fs₀ jobs' jobs b a :=
  ⟨h.right, h.left, h.ge, h.le⟩

theorem Meet.slot : cfg.slot a.fs p = .ok l ↔ cfg.slot b.fs p = .ok l :=
  ⟨fun hslot => h.le.slot hslot, fun hslot => h.ge.slot hslot⟩

theorem Meet.installed_subset (hp : p ∈ a.installed) : p ∈ b.installed := by
  obtain ⟨l, i, hplaced⟩ := h.left.inRound.laid.placed p hp
  by_contra hnot
  have hnone := h.right.slot_of_not_installed (h.left.inRound.tidy.mem p hp) hnot
  cases hnone.symm.trans (h.slot.1 hplaced.slot)

theorem Meet.count_eq : a.count = b.count := by
  have ha := h.left.inRound.tidy
  have hb := h.right.inRound.tidy
  have hperm : a.installed.Perm b.installed := (List.perm_ext_iff_of_nodup ha.nodup hb.nodup).2
    fun p => ⟨h.installed_subset, h.symm.installed_subset⟩
  rw [ha.count, hb.count, hperm.length_eq]

/-- What one run has made the other has made as well. -/
theorem Meet.object_of_some {o : Object} (ho : a.fs.object? l = some o) :
    b.fs.object? l = some o := by
  have ha := h.left.inRound.laid
  have hb := h.right.inRound.laid
  obtain ⟨i, hi, rfl⟩ := Option.map_eq_some_iff.1 ho
  unfold Fs.object?
  cases hold : fs₀.names l with
  | some j =>
    cases (ha.grows.names l j hold).symm.trans hi
    have hlt := fs₀.lt_next l i hold
    rw [hb.grows.names l i hold, Option.map_some, ha.old i hlt, hb.old i hlt]
  | none =>
    obtain ⟨p, hp, hslot, hinst | ⟨t, stage, hjob, -⟩⟩ := ha.owned l i hi hold
    · obtain ⟨la, ia, hpa⟩ := ha.placed p hinst
      obtain ⟨lb, ib, hpb⟩ := hb.placed p (h.installed_subset hinst)
      cases hpa.slot.symm.trans hslot
      cases hpa.names.symm.trans hi
      cases hpb.slot.symm.trans (h.slot.1 hslot)
      rw [hpb.names, Option.map_some, hpa.object hold, hpb.object hold]
    · cases (h.left.idle t).symm.trans hjob

theorem Meet.object_eq (l : Loc) : a.fs.object? l = b.fs.object? l := by
  cases ha : a.fs.object? l with
  | some o => exact (h.object_of_some ha).symm
  | none =>
    cases hb : b.fs.object? l with
    | some o => cases ha.symm.trans (h.symm.object_of_some hb)
    | none => rfl

theorem Meet.endRound_eq (hone : OneName fs₀) (ha : Clear cfg fs₀ a.fs) (hb : Clear cfg fs₀ b.fs) :
    (endRound cfg a).phase = (endRound cfg b).phase ∧
      ∀ l, (endRound cfg a).fs.object? l = (endRound cfg b).fs.object? l := by
  by_cases hcount : cfg.files.length ≤ a.count
  · obtain ⟨hphase, hown, hother⟩ := h.left.object_endRound ha hone hcount
    obtain ⟨hphase', hown', hother'⟩ := h.right.object_endRound hb hone (h.count_eq ▸ hcount)
    refine ⟨hphase.trans hphase'.symm, fun l => ?_⟩
    by_cases hl : ∃ p ∈ cfg.files, cfg.slot a.fs p = .ok l
    · obtain ⟨p, hp, hslot⟩ := hl
      rw [hown p hp l hslot, hown' p hp l (h.slot.1 hslot), h.object_eq]
    · have hl' (p : Item) (hp : p ∈ cfg.files) (hslot : cfg.slot a.fs p = .ok l) : False :=
        hl ⟨p, hp, hslot⟩
      rw [hother l hl', hother' l fun p hp hslot => hl' p hp (h.slot.2 hslot), h.object_eq]
  · rw [h.left.endRound_uninstalled (not_le.1 hcount),
      h.right.endRound_uninstalled (h.count_eq ▸ not_le.1 hcount)]
    exact ⟨rfl, h.object_eq⟩

end

/-- What the run has made so far is in every file system in which the files are installed. -/
def State.Least (cfg : Setup) (fs₀ : Fs) (s : State) : Prop :=
  ∀ fs, fs₀.Below fs → Decided cfg fs₀ fs → s.fs.Below fs

theorem over_of_reach (hready : Ready cfg fs₀)
    (h : (installation cfg fs₀ jobs).ReachBy (fun s l => Undisturbed cfg fs₀ s l.1) s)
    (hend : ¬s.phase.Running) :
    ∃ a, Over cfg fs₀ jobs a ∧ Clear cfg fs₀ a.fs ∧ a.Least cfg fs₀ ∧ s = endRound cfg a := by
  have hstory := story_of_reach (C := Undisturbed cfg fs₀) (I := State.Least cfg fs₀) hready
    (fun s t hs => hs.clear) (fun fs hbelow _ => hbelow)
    (fun s t s' hround hleast hevent hround' fs hbelow hdecided =>
      below_of_event hround hdecided (hleast fs hbelow hdecided) hevent hround') h
  cases hstory with
  | inRound hround => exact absurd hround.running hend
  | afterAll hover hcond hleast => exact ⟨_, hover, hcond.clear, hleast, rfl⟩
  | exit hcond hfatal => exact absurd hfatal hcond.calm

end

/-- A run with any number of threads and a run with one, on the same tree, in which at every step no
two files lead to the same place, only directories lead to what was there before and no call ends
the program, end in the same way, with the same objects everywhere. -/
theorem jobs_agree (world : World) (user : User) (dev jobs : Nat) (args : List Path)
    (tree : List File)
    (nr : Nat) (s s₁ : State) (hwalk : world.env.WalkTells) (hone : OneName world.fs)
    (htree : Collects world.env args (.finished tree nr))
    (hrun : (installation (world.setup user dev tree) world.fs jobs).ReachBy
      (fun s l => Undisturbed (world.setup user dev tree) world.fs s l.1) s)
    (hrun₁ : (installation (world.setup user dev tree) world.fs 1).ReachBy
      (fun s l => Undisturbed (world.setup user dev tree) world.fs s l.1) s₁)
    (hend : ¬s.phase.Running) (hend₁ : ¬s₁.phase.Running) :
    s.phase = s₁.phase ∧ ∀ l, s.fs.object? l = s₁.fs.object? l := by
  have hready : Ready (world.setup user dev tree) world.fs := World.ready hwalk htree
  obtain ⟨a, hover, hclear, hleast, rfl⟩ := over_of_reach hready hrun hend
  obtain ⟨b, hover₁, hclear₁, hleast₁, rfl⟩ := over_of_reach hready hrun₁ hend₁
  have hmeet : Meet (world.setup user dev tree) world.fs jobs 1 a b :=
    { left := hover
      right := hover₁
      le := hleast b.fs hover₁.inRound.laid.grows.below hover₁.decided
      ge := hleast₁ a.fs hover.inRound.laid.grows.below hover.decided }
  exact hmeet.endRound_eq hone hclear hclear₁

/-! ## Two files of one name -/

/-- A test for `Undisturbed`. -/
def Setup.undisturbed (cfg : Setup) (fs₀ : Fs) (s : State) (t : Nat) : Bool :=
  decide (cfg.Apart s.fs) &&
  decide (∀ p ∈ cfg.files, ∀ l ∈ cfg.place? s.fs p, fs₀.names l ≠ none →
    p.stat.type = .dir ∧ fs₀.body? l = some .dir) &&
  (s.job t).all fun e => decide (e.1.stat.type ≠ .sock) && (cfg.place? s.fs e.1).isSome

theorem undisturbed_of_test {cfg : Setup} {fs₀ : Fs} {s : State} {t : Nat}
    (h : cfg.undisturbed fs₀ s t = true) : Undisturbed cfg fs₀ s t := by
  unfold Setup.undisturbed at h
  simp only [Bool.and_eq_true, decide_eq_true_eq] at h
  obtain ⟨⟨happart, huntouched⟩, hjob⟩ := h
  refine ⟨⟨fun p q l hp hq hpl hql => happart p hp q hq l (mem_place?.2 hpl) (mem_place?.2 hql),
    fun p l hp hpl => huntouched p hp l (mem_place?.2 hpl)⟩, ?_⟩
  rintro ⟨p, stage, hj, hfatal⟩
  rw [hj, Option.all_some, Bool.and_eq_true, decide_eq_true_eq] at hjob
  rcases hfatal with ⟨e, he, -⟩ | ⟨htype, -⟩
  · obtain ⟨l, hl⟩ := Option.isSome_iff_exists.1 hjob.2
    cases he.symm.trans (mem_place?.1 hl)
  · exact hjob.1 htype

def collisionBody : Nat → Body
  | 3 => .reg [97]
  | 4 => .reg [98]
  | _ => .dir

def collisionNames : List (Loc × Nat) :=
  [([], 1), ([[112]], 2), ([[112], [120]], 3), ([[120]], 4), ([[111]], 5)]

/-- The files `/p/x` and `/x` of different content and the empty directory `/o`. -/
def collisionWorld (removed : Option Path) : World where
  fs := Fs.ofList collisionNames (fun i => sampleInode (collisionBody i)) 6 (by decide)
    (by decide) (by decide)
  cwd := []
  cwd_dir := by decide
  destdir := [[111]]
  removePrefix := removed
  excluded := fun _ => false
  force := false
  deps := fun _ => some []
  walk := fun _ => []

/-- What `initrd-put` collects for the two files, with the names that it gives to `/p` and `/p/x`.
-/
def collisionTree (p px : Path) : List File :=
  [⟨[[], [112]], p, none, some ⟨.dir, 0o755, 0, 0, 8, 2, 0, 1⟩, false⟩,
    ⟨[[], [112], [120]], px, none, some ⟨.reg, 0o755, 0, 0, 8, 3, 0, 1⟩, true⟩,
    ⟨[[], [120]], [[], [120]], none, some ⟨.reg, 0o755, 0, 0, 8, 4, 0, 1⟩, true⟩]

theorem collisionWorld_oneName (removed : Option Path) : OneName (collisionWorld removed).fs := by
  intro l l' i hi hi' _
  have hone : ∀ e ∈ collisionNames, ∀ e' ∈ collisionNames, e.2 = e'.2 → e.1 = e'.1 := by decide
  exact hone _ (Fs.mem_of_find hi) _ (Fs.mem_of_find hi') rfl

/-- `n` calls of the thread `t`. -/
def calls (t n : Nat) : List (Nat × Choice) :=
  List.replicate n (t, .go)

/-- The directory, and the steps of the thread `t` from the opening of a file to the end of its
copy. -/
def copyOne (t : Nat) : List (Nat × Choice) :=
  calls t 2 ++ [(t, .allocated), (t, .answer (.transferred 1))]

/-- Both threads look whether their file is there, and then one after the other copies it. -/
def collisionRun : List (Nat × Choice) :=
  calls 0 3 ++ (calls 0 2 ++ calls 1 2 ++ copyOne 0 ++ copyOne 1) ++ calls 0 8

/-- One thread alone, which finds the second file there or copies it. -/
def singleRun (found : Bool) : List (Nat × Choice) :=
  calls 0 3 ++ (calls 0 2 ++ copyOne 0 ++ calls 0 2 ++ (if found then [] else copyOne 0)) ++
    calls 0 8

/-- The two keep their names. -/
abbrev apartSetup : Setup :=
  (collisionWorld none).setup root 9 (collisionTree [[], [112]] [[], [112], [120]])

/-- With the prefix `/p` removed both are `/x`. -/
abbrev collisionSetup : Setup :=
  (collisionWorld (some [[], [112]])).setup root 9 (collisionTree [[]] [[], [120]])

theorem apart_reach (jobs : Nat) (ls : List (Nat × Choice))
    (h : ((installation apartSetup (collisionWorld none).fs jobs).exec
      (fun s l => apartSetup.undisturbed (collisionWorld none).fs s l.1)
      (start apartSetup (collisionWorld none).fs) ls).any (fun s => s.phase.isDone) = true) :
    ∃ s, (installation apartSetup (collisionWorld none).fs jobs).ReachBy
      (fun s l => Undisturbed apartSetup (collisionWorld none).fs s l.1) s ∧ s.phase = .done := by
  obtain ⟨s, hreach, hend⟩ :=
    Lts.reachBy_of_exec (show (installation _ _ jobs).init _ from rfl) _ _ _ h
  exact ⟨s, hreach.mono fun s l => undisturbed_of_test, Phase.isDone_iff.1 hend⟩

theorem jobs_agree_two : ∃ s s₁, (installation apartSetup (collisionWorld none).fs 2).ReachBy
        (fun s l => Undisturbed apartSetup (collisionWorld none).fs s l.1) s ∧
      (installation apartSetup (collisionWorld none).fs 1).ReachBy
        (fun s l => Undisturbed apartSetup (collisionWorld none).fs s l.1) s₁ ∧
      s.phase = s₁.phase ∧ ∀ l, s.fs.object? l = s₁.fs.object? l := by
  obtain ⟨s, hreach, hdone⟩ := apart_reach 2 collisionRun (by decide +kernel)
  obtain ⟨s₁, hreach₁, hdone₁⟩ := apart_reach 1 (singleRun false) (by decide +kernel)
  refine ⟨s, s₁, hreach, hreach₁, jobs_agree (collisionWorld none) root 9 2
    [[[], [112], [120]], [[], [120]]] _ 3 s s₁ (fun _ => nofun) (collisionWorld_oneName none)
    (collects_of_run (n := 6) ?_) hreach hreach₁ (hdone ▸ id) (hdone₁ ▸ id)⟩
  decide +kernel

theorem collision_reach (jobs : Nat) (ls : List (Nat × Choice)) (content : Bytes)
    (h : ((installation collisionSetup (collisionWorld (some [[], [112]])).fs jobs).exec
      (fun _ _ => true) (start collisionSetup (collisionWorld (some [[], [112]])).fs) ls).any
        (fun s => s.phase.isDone && s.fs.object? [[111], [120]] =
          some ⟨.reg content, 0o755, 0, 0⟩) = true) :
    ∃ s, (installation collisionSetup (collisionWorld (some [[], [112]])).fs jobs).Reach s ∧
      s.phase = .done ∧ s.fs.object? [[111], [120]] = some ⟨.reg content, 0o755, 0, 0⟩ := by
  obtain ⟨s, hreach, hend⟩ :=
    Lts.reach_of_exec (show (installation _ _ jobs).init _ from rfl) _ _ h
  rw [Bool.and_eq_true, decide_eq_true_eq] at hend
  exact ⟨s, hreach, Phase.isDone_iff.1 hend.1, hend.2⟩

/-- One thread keeps the copy of the first file, which the second of two threads overwrites. -/
theorem not_jobs_agree :
    Collects (collisionWorld (some [[], [112]])).env [[[], [112], [120]], [[], [120]]]
      (.finished (collisionTree [[]] [[], [120]]) 3) ∧
    ∃ s s₁, (installation collisionSetup (collisionWorld (some [[], [112]])).fs 2).Reach s ∧
      (installation collisionSetup (collisionWorld (some [[], [112]])).fs 1).Reach s₁ ∧
      s.phase = .done ∧ s₁.phase = .done ∧
      s.fs.object? [[111], [120]] ≠ s₁.fs.object? [[111], [120]] := by
  refine ⟨collects_of_run (n := 6) (by decide +kernel), ?_⟩
  obtain ⟨s, hreach, hdone, hx⟩ := collision_reach 2 collisionRun [98] (by decide +kernel)
  obtain ⟨s₁, hreach₁, hdone₁, hx₁⟩ := collision_reach 1 (singleRun true) [97] (by decide +kernel)
  refine ⟨s, s₁, hreach, hreach₁, hdone, hdone₁, ?_⟩
  rw [hx, hx₁]
  decide

end MakeInitrd.Put
