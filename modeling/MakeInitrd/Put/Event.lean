import MakeInitrd.Put.Install

/-!
# The events of an installation

As long as no two files lead to the same place and no file but a directory leads to what was there
before (`Clear`), every object that the installation made is at the place of one file, which is
marked as installed or is being copied by one thread, and it is what the file asks for (`Laid`).

The threads of the pool take different files (`Tidy`), so under `Clear` a thread that is about to
make the copy of a file finds its place free, unless a directory was there before (`place_free`).
With that every step of the system is one of the events that `Event` lists.
-/

namespace MakeInitrd.Put

open Posix CMem

section
/-! ## Files and their copies -/

section
variable (cfg : Setup) (fs₀ : Fs)

/-- The place of a file in the destination. -/
def Setup.slot (fs : Fs) (p : Item) : Except Errno Loc :=
  fs.slot cfg.cwd (cfg.path p)

/-- The file is what `lstat`, `readlink` and `st_size` said about its source. -/
structure Sourced (p : Item) : Prop where
  lstat : fs₀.lstat cfg.cwd p.src = .ok p.stat
  symlink : p.stat.type = .lnk → p.symlink = fs₀.readlink cfg.cwd p.src
  size : p.stat.type = .reg → p.size = (fs₀.inodes p.stat.ino).body.content.length

/-- The tree comes from the file system in which the installation starts. -/
structure Ready : Prop where
  cwd : fs₀.body? cfg.cwd ≠ none
  nodup : cfg.files.Nodup
  sourced (p : Item) : p ∈ cfg.files → Sourced cfg fs₀ p

/-- What the installation makes of a file, before its owner and its permissions are set. -/
def Setup.copyOf (p : Item) : Object :=
  let new (body : Body) (perm : Nat) : Object := ⟨body, perm, cfg.uid, cfg.gid⟩
  match p.stat.type with
  | .dir => new .dir 0o755
  | .blk => new (.blk p.stat.dev) p.stat.perm
  | .chr => new (.chr p.stat.dev) p.stat.perm
  | .lnk => new (.link (cfg.target (p.symlink.getD [[]]))) 0o777
  | .fifo => new .fifo p.stat.perm
  | .sock => new .sock 0o777
  | .reg => new (.reg (fs₀.inodes p.stat.ino).body.content) p.stat.perm

/-- No two files lead to the same place, and only a directory leads to what was there before, which
is a directory too. -/
structure Clear (fs : Fs) : Prop where
  apart (p q : Item) (l : Loc) : p ∈ cfg.files → q ∈ cfg.files → cfg.slot fs p = .ok l →
    cfg.slot fs q = .ok l → p = q
  untouched (p : Item) (l : Loc) : p ∈ cfg.files → cfg.slot fs p = .ok l → fs₀.names l ≠ none →
    p.stat.type = .dir ∧ fs₀.body? l = some .dir

/-- The file is installed at `l` with the inode `i`. -/
structure PlacedAt (fs : Fs) (p : Item) (l : Loc) (i : Nat) : Prop where
  slot : cfg.slot fs p = .ok l
  names : fs.names l = some i
  made : (fs₀.names l = none ∧ fs₀.next ≤ i ∧ (fs.inodes i).object = cfg.copyOf fs₀ p) ∨
    fs₀.names l = some i ∧ p.stat.type = .dir ∧ fs₀.body? l = some .dir

/-- The file is being copied to `l`, the only name of the inode `dfd`. -/
structure OpenedAt (fs : Fs) (p : Item) (l : Loc) (dfd : Nat) (dst : Bytes) : Prop where
  slot : cfg.slot fs p = .ok l
  names : fs.names l = some dfd
  sole (l' : Loc) : fs.names l' = some dfd → l' = l
  fresh : fs₀.names l = none
  new : fs₀.next ≤ dfd
  object : (fs.inodes dfd).object = ⟨.reg dst, p.stat.perm, cfg.uid, cfg.gid⟩

end

/-- The inode that a thread copies to. -/
def Stage.dfd : Stage → Option Nat
  | .allocate _ dfd | .copy _ dfd _ => some dfd
  | _ => none

/-- The file has been made: it is marked, or a thread copies to it. -/
def State.Held (s : State) (p : Item) : Prop :=
  p ∈ s.installed ∨ ∃ t stage, s.job t = some (p, stage) ∧ stage.dfd ≠ none

section
variable (cfg : Setup) (fs₀ : Fs)

/-- What a thread knows when it is at a stage. -/
def Stage.Fits (fs : Fs) (installed : List Item) (p : Item) : Stage → Prop
  | .remove none => p.stat.type ≠ .dir
  | .make => p.stat.type ≠ .reg
  | .access | .openSource => p.stat.type = .reg
  | .creat sfd => p.stat.type = .reg ∧ sfd = p.stat.ino
  | .allocate sfd dfd => p.stat.type = .reg ∧ sfd = p.stat.ino ∧
    ∃ l, OpenedAt cfg fs₀ fs p l dfd []
  | .copy sfd dfd c => p.stat.type = .reg ∧ sfd = p.stat.ino ∧
    ∃ l dst, OpenedAt cfg fs₀ fs p l dfd dst ∧ c.Inv (fs₀.inodes p.stat.ino).body.content dst
  | .remove (some q) | .link q => p.stat.type = .reg ∧ q ∈ installed ∧ q.stat = p.stat

/-- The state of the destination in a round. -/
structure Laid (s : State) : Prop where
  grows : fs₀.Grows s.fs
  old (i : Nat) : i < fs₀.next → s.fs.inodes i = fs₀.inodes i
  owned (l : Loc) (i : Nat) : s.fs.names l = some i → fs₀.names l = none →
    ∃ p ∈ cfg.files, cfg.slot s.fs p = .ok l ∧ s.Held p
  placed (p : Item) : p ∈ s.installed → ∃ l i, PlacedAt cfg fs₀ s.fs p l i
  shared (p q : Item) (l l' : Loc) (i : Nat) : p ∈ s.installed → q ∈ s.installed →
    PlacedAt cfg fs₀ s.fs p l i → PlacedAt cfg fs₀ s.fs q l' i → fs₀.next ≤ i → q.stat = p.stat
  fits (t : Nat) (p : Item) (stage : Stage) : s.job t = some (p, stage) →
    stage.Fits cfg fs₀ s.fs s.installed p

end

section
variable {cfg : Setup} {fs₀ fs fs' : Fs} {s s' : State} {p q : Item} {l : Loc} {i dfd : Nat}
  {dst : Bytes} {stage : Stage} {installed installed' : List Item}

theorem Sourced.inode (h : Sourced cfg fs₀ p) : ∃ l, fs₀.slot cfg.cwd p.src = .ok l ∧
    fs₀.names l = some p.stat.ino ∧ p.stat = fs₀.statOf p.stat.ino := by
  obtain ⟨l, hslot, hstat⟩ := Fs.lstat_eq_ok h.lstat
  exact ⟨l, hslot, Fs.stat?_eq_some hstat⟩

theorem Sourced.stat_eq (hp : Sourced cfg fs₀ p) (hq : Sourced cfg fs₀ q)
    (hino : q.stat.ino = p.stat.ino) : q.stat = p.stat := by
  obtain ⟨-, -, -, hp⟩ := hp.inode
  obtain ⟨-, -, -, hq⟩ := hq.inode
  rw [hp, hq, hino]

/-- The symlink has the target that was read. -/
theorem Sourced.target (h : Sourced cfg fs₀ p) (hlnk : p.stat.type = .lnk) :
    ∃ t, p.symlink = some t ∧ (fs₀.inodes p.stat.ino).body = .link t := by
  obtain ⟨l, hslot, hnames, hstat⟩ := h.inode
  have htype : (fs₀.inodes p.stat.ino).body.type = .lnk := by
    rw [← hlnk, hstat]
    rfl
  cases hbody : (fs₀.inodes p.stat.ino).body with
  | link t =>
    refine ⟨t, ?_, rfl⟩
    have hb : fs₀.body? l = some (.link t) := by
      unfold Fs.body?
      rw [hnames, Option.map_some, hbody]
    rw [h.symlink hlnk]
    unfold Fs.readlink
    simp only [hslot, hb]
  | _ =>
    rw [hbody] at htype
    cases htype

/-- The regular file can be opened. -/
theorem Sourced.resolve (h : Sourced cfg fs₀ p) (hreg : p.stat.type = .reg) :
    ∃ l, fs₀.resolve cfg.cwd p.src = .ok l ∧ fs₀.names l = some p.stat.ino ∧
      p.stat.ino < fs₀.next ∧ ∃ c, (fs₀.inodes p.stat.ino).body = .reg c := by
  obtain ⟨l, hslot, hnames, hstat⟩ := h.inode
  have htype : (fs₀.inodes p.stat.ino).body.type = .reg := by
    rw [← hreg, hstat]
    rfl
  have hb : fs₀.body? l = some (fs₀.inodes p.stat.ino).body := by
    unfold Fs.body?
    rw [hnames, Option.map_some]
  refine ⟨l, Fs.resolve_of_slot hslot hb ?_, hnames, fs₀.lt_next l _ hnames, ?_⟩
  · intro t ht
    rw [ht] at htype
    cases htype
  · cases hbody : (fs₀.inodes p.stat.ino).body with
    | reg c => exact ⟨c, rfl⟩
    | _ =>
      rw [hbody] at htype
      cases htype

/-! ## What stays when objects are added -/

theorem PlacedAt.mono (h : PlacedAt cfg fs₀ fs p l i) (hgrow : fs.Grows fs')
    (hobj : (fs'.inodes i).object = (fs.inodes i).object) : PlacedAt cfg fs₀ fs' p l i where
  slot := hgrow.below.slot h.slot
  names := hgrow.names l i h.names
  made := h.made.imp_left fun ⟨hnone, hnew, hmade⟩ => ⟨hnone, hnew, hobj.trans hmade⟩

theorem PlacedAt.unique {l' : Loc} {i' : Nat} (h : PlacedAt cfg fs₀ fs p l i)
    (h' : PlacedAt cfg fs₀ fs p l' i') : l' = l ∧ i' = i := by
  cases h.slot.symm.trans h'.slot
  cases h.names.symm.trans h'.names
  exact ⟨rfl, rfl⟩

theorem PlacedAt.back {l' : Loc} {i' : Nat} (h : PlacedAt cfg fs₀ fs p l i) (hgrow : fs.Grows fs')
    (h' : PlacedAt cfg fs₀ fs' p l' i') : PlacedAt cfg fs₀ fs p l' i' := by
  cases (hgrow.below.slot h.slot).symm.trans h'.slot
  cases (hgrow.names l i h.names).symm.trans h'.names
  exact h

theorem OpenedAt.mono (h : OpenedAt cfg fs₀ fs p l dfd dst) (hgrow : fs.Grows fs')
    (hobj : (fs'.inodes dfd).object = (fs.inodes dfd).object)
    (hsole : ∀ l', fs'.names l' = some dfd → fs.names l' = some dfd) :
    OpenedAt cfg fs₀ fs' p l dfd dst where
  slot := hgrow.below.slot h.slot
  names := hgrow.names l dfd h.names
  sole l' hl' := h.sole l' (hsole l' hl')
  fresh := h.fresh
  new := h.new
  object := hobj.trans h.object

/-- What a thread knows stays true. -/
theorem Stage.Fits.mono (h : stage.Fits cfg fs₀ fs installed p) (hgrow : fs.Grows fs')
    (hinst : ∀ q ∈ installed, q ∈ installed')
    (hobj : ∀ dfd, stage.dfd = some dfd → (fs'.inodes dfd).object = (fs.inodes dfd).object)
    (hsole : ∀ dfd l', stage.dfd = some dfd → fs'.names l' = some dfd → fs.names l' = some dfd) :
    stage.Fits cfg fs₀ fs' installed' p := by
  cases stage with
  | remove target =>
    cases target with
    | none => exact h
    | some q => exact ⟨h.1, hinst q h.2.1, h.2.2⟩
  | make | access | openSource | creat => exact h
  | allocate sfd dfd =>
    obtain ⟨hreg, hsfd, l, hopen⟩ := h
    exact ⟨hreg, hsfd, l, hopen.mono hgrow (hobj dfd rfl) (hsole dfd · rfl)⟩
  | copy sfd dfd c =>
    obtain ⟨hreg, hsfd, l, dst, hopen, hinv⟩ := h
    exact ⟨hreg, hsfd, l, dst, hopen.mono hgrow (hobj dfd rfl) (hsole dfd · rfl), hinv⟩
  | link q => exact ⟨h.1, hinst q h.2.1, h.2.2⟩

theorem Stage.Fits.opened (h : stage.Fits cfg fs₀ fs installed p) (hdfd : stage.dfd = some dfd) :
    p.stat.type = .reg ∧ ∃ l dst, OpenedAt cfg fs₀ fs p l dfd dst := by
  cases stage with
  | allocate sfd dfd' =>
    cases hdfd
    exact ⟨h.1, h.2.2.choose, _, h.2.2.choose_spec⟩
  | copy sfd dfd' c =>
    cases hdfd
    obtain ⟨hreg, -, l, dst, hopen, -⟩ := h
    exact ⟨hreg, l, dst, hopen⟩
  | _ => cases hdfd

end

end

/-! ## Who installs what -/

/-- The files that are still to be looked at in this step of the round. -/
def Phase.todo : Phase → List Item
  | .dirs todo | .pool todo => todo
  | .hardlinks todo => todo.map Prod.fst
  | _ => []

/-- The next of them. -/
def Phase.pop : Phase → Option (Item × Phase)
  | .dirs (p :: todo) => some (p, .dirs todo)
  | .pool (p :: todo) => some (p, .pool todo)
  | .hardlinks (e :: todo) => some (e.1, .hardlinks todo)
  | _ => none

/-- They are the rest of a collection. -/
def Phase.InTurn (cfg : Setup) : Phase → Prop
  | .dirs todo => todo <:+ cfg.collector.dirs
  | .pool todo => todo <:+ cfg.collector.nonDirs
  | .hardlinks todo => todo <:+ cfg.collector.hardlinks
  | _ => True

def Phase.TakesPart (cfg : Setup) (jobs : Nat) : Phase → Nat → Prop
  | .pool _, t => t < cfg.workers jobs
  | _, t => t = 0

/-- Threads install different files, none of which is marked or is still to be looked at. -/
structure Tidy (cfg : Setup) (jobs : Nat) (s : State) : Prop where
  mem (p : Item) : p ∈ s.installed → p ∈ cfg.files
  nodup : s.installed.Nodup
  count : s.count = s.installed.length
  busy (t : Nat) (p : Item) (stage : Stage) : s.job t = some (p, stage) →
    p ∈ cfg.files ∧ p ∉ s.installed ∧ p ∉ s.phase.todo
  distinct (t t' : Nat) (p : Item) (stage stage' : Stage) : s.job t = some (p, stage) →
    s.job t' = some (p, stage') → t = t'
  inTurn : s.phase.InTurn cfg
  takesPart (t : Nat) : s.job t ≠ none → s.phase.TakesPart cfg jobs t

/-- The call of a thread ends the program: the place of its file cannot be looked up, a name is to
be linked where there is no directory, or the path is too long for a socket. -/
def Fatal (cfg : Setup) (s : State) (t : Nat) : Prop :=
  ∃ p stage, s.job t = some (p, stage) ∧
    ((∃ e, cfg.slot s.fs p = .error e ∧ (e = .noent → ∃ q, stage = .link q)) ∨
      p.stat.type = .sock ∧ Setup.sunPath ≤ (text (cfg.path p)).length)

/-- What a step of the thread `t` can do. -/
inductive Event (cfg : Setup) (fs₀ : Fs) (jobs : Nat) (s : State) (t : Nat) : State → Prop
  /-- the next call, with nothing changed -/
  | advance {p : Item} {stage stage' : Stage} : s.job t = some (p, stage) → stage.dfd = none →
    stage'.dfd = none → stage'.Fits cfg fs₀ s.fs s.installed p →
    Event cfg fs₀ jobs s t (s.goto t p stage')
  /-- the parent directory is missing -/
  | missing {p : Item} {stage : Stage} : s.job t = some (p, stage) → stage.dfd = none →
    cfg.slot s.fs p = .error .noent → Event cfg fs₀ jobs s t (s.leave t)
  /-- a directory that was there before -/
  | skip {p : Item} {stage : Stage} {l : Loc} {i : Nat} : s.job t = some (p, stage) →
    stage.dfd = none → fs₀.names l = some i → PlacedAt cfg fs₀ s.fs p l i →
    Event cfg fs₀ jobs s t (s.finish t p)
  /-- a new object -/
  | made {p : Item} {stage : Stage} {l : Loc} {x : Inode} : s.job t = some (p, stage) →
    stage.dfd = none → cfg.slot s.fs p = .ok l → (hl : s.fs.Free l) → x.object = cfg.copyOf fs₀ p →
    Event cfg fs₀ jobs s t ({ s with fs := s.fs.create l x hl }.finish t p)
  /-- a new regular file, still empty -/
  | opened {p : Item} {stage : Stage} {l : Loc} {x : Inode} : s.job t = some (p, stage) →
    stage.dfd = none → p.stat.type = .reg → cfg.slot s.fs p = .ok l → (hl : s.fs.Free l) →
    x.object = ⟨.reg [], p.stat.perm, cfg.uid, cfg.gid⟩ →
    Event cfg fs₀ jobs s t
      ({ s with fs := s.fs.create l x hl }.goto t p (.allocate p.stat.ino s.fs.next))
  /-- a part of the copy -/
  | copying {p : Item} {stage : Stage} {dfd : Nat} {l : Loc} {dst dst' : Bytes} {fs : Fs}
    {methods : Methods} {c : Copy} : s.job t = some (p, stage) → stage.dfd = some dfd →
    OpenedAt cfg fs₀ s.fs p l dfd dst → fs = s.fs ∧ dst' = dst ∨ fs = s.fs.setContent dfd dst' →
    c.Inv (fs₀.inodes p.stat.ino).body.content dst' →
    Event cfg fs₀ jobs s t
      ({ s with fs := fs, methods := methods }.goto t p (.copy p.stat.ino dfd c))
  /-- the last part of the copy -/
  | copied {p : Item} {stage : Stage} {dfd : Nat} {l : Loc} {dst : Bytes} {methods : Methods} :
    s.job t = some (p, stage) → stage.dfd = some dfd → p.stat.type = .reg →
    OpenedAt cfg fs₀ s.fs p l dfd dst →
    Event cfg fs₀ jobs s t ({ s with
        fs := s.fs.setContent dfd (fs₀.inodes p.stat.ino).body.content
        methods := methods }.finish t p)
  /-- a further name -/
  | linked {p q : Item} {l l₀ : Loc} {i : Nat} {hi : i < s.fs.next} : s.job t = some (p, .link q) →
    q ∈ s.installed → p.stat.type = .reg → q.stat = p.stat → PlacedAt cfg fs₀ s.fs q l₀ i →
    cfg.slot s.fs p = .ok l → (hl : s.fs.Free l) →
    Event cfg fs₀ jobs s t ({ s with fs := s.fs.addName l i hl hi }.finish t p)
  | fatal : Fatal cfg s t → Event cfg fs₀ jobs s t s.fail
  /-- a file that is installed already -/
  | pass {p : Item} {ph : Phase} : s.phase.pop = some (p, ph) → p ∈ s.installed →
    Event cfg fs₀ jobs s t { s with phase := ph }
  /-- a file that a thread takes up -/
  | take {p : Item} {ph : Phase} {stage : Stage} : s.job t = none → s.phase.TakesPart cfg jobs t →
    s.phase.pop = some (p, ph) → p ∉ s.installed → stage.dfd = none →
    stage.Fits cfg fs₀ s.fs s.installed p →
      Event cfg fs₀ jobs s t ({ s with phase := ph }.goto t p stage)
  /-- the next step of the round -/
  | enter {ph : Phase} : (∀ t, s.job t = none) →
    s.phase = .dirs [] ∧ ph = .pool cfg.collector.nonDirs ∨
      s.phase = .pool [] ∧ ph = .hardlinks cfg.collector.hardlinks →
    Event cfg fs₀ jobs s t { s with phase := ph }
  | ended : (∀ t,
    s.job t = none) → s.phase = .hardlinks [] → Event cfg fs₀ jobs s t (endRound cfg s)

/-- What a thread decides that installs nothing. -/
inductive Decision (cfg : Setup) (jobs : Nat) (s : State) (t : Nat) : State → Prop
  | file {p : Item} {ph : Phase} : p ∈ cfg.collector.dirs ++ cfg.collector.nonDirs →
    s.phase.TakesPart cfg jobs t → s.phase.pop = some (p, ph) →
    Decision cfg jobs s t (if p ∈ s.installed then { s with phase := ph }
      else { s with phase := ph }.goto t p (cfg.installFile p))
  | hardlink {p q : Item} {ph : Phase} : (p, q) ∈ cfg.collector.hardlinks →
    s.phase.TakesPart cfg jobs t → s.phase.pop = some (p, ph) →
    Decision cfg jobs s t (if p ∈ s.installed then { s with phase := ph }
      else installHardlink cfg { s with phase := ph } t p q)
  | enter {ph : Phase} : (∀ t, s.job t = none) →
    s.phase = .dirs [] ∧ ph = .pool cfg.collector.nonDirs ∨
      s.phase = .pool [] ∧ ph = .hardlinks cfg.collector.hardlinks →
    Decision cfg jobs s t { s with phase := ph }
  | ended : (∀ t, s.job t = none) → s.phase = .hardlinks [] → Decision cfg jobs s t (endRound cfg s)

section
variable {cfg : Setup} {fs₀ : Fs} {s s' : State} {jobs t : Nat} {p q : Item}
  {stage : Stage} {l : Loc} {c : Choice}

/-! ## Calls -/

theorem Laid.cwd (h : Laid cfg fs₀ s) (hready : Ready cfg fs₀) : s.fs.body? cfg.cwd ≠ none := by
  obtain ⟨b, hb⟩ := Option.ne_none_iff_exists'.1 hready.cwd
  obtain ⟨b', hb', -⟩ := h.grows.below _ _ hb
  rw [hb']
  exact nofun

theorem path_ne_nil (cfg : Setup) (p : Item) : cfg.path p ≠ [] := by
  unfold Setup.path concat
  split
  · unfold Loc.path
    split <;> exact List.cons_ne_nil _ _
  · exact List.append_ne_nil_of_right_ne_nil _ (List.cons_ne_nil _ _)

theorem dfd_first (p : Item) : (Setup.first p).dfd = none := by
  unfold Setup.first
  split <;> rfl

theorem first_fits {fs : Fs} {installed : List Item} (p : Item) :
    (Setup.first p).Fits cfg fs₀ fs installed p := by
  unfold Setup.first
  split
  · next hreg => exact hreg
  · next hreg => exact hreg

theorem dfd_installFile (p : Item) : (cfg.installFile p).dfd = none := by
  unfold Setup.installFile
  split
  · rfl
  · exact dfd_first p

theorem installFile_fits {fs : Fs} {installed : List Item} (p : Item) :
    (cfg.installFile p).Fits cfg fs₀ fs installed p := by
  unfold Setup.installFile
  split
  · next hforce => exact hforce.2
  · exact first_fits p

/-- A thread that is about to make a copy finds its place free, or an old directory there. -/
theorem place_free (hready : Ready cfg fs₀) (htidy : Tidy cfg jobs s) (hlaid : Laid cfg fs₀ s)
    (hclear : Clear cfg fs₀ s.fs) (hjob : s.job t = some (p, stage)) (hdfd : stage.dfd = none)
    (hslot : cfg.slot s.fs p = .ok l) :
    s.fs.Free l ∨ p.stat.type = .dir ∧ ∃ i, fs₀.names l = some i ∧ PlacedAt cfg fs₀ s.fs p l i := by
  cases hnames : s.fs.names l with
  | none => exact .inl (Fs.free_of_slot (hlaid.cwd hready) hslot hnames)
  | some i =>
    obtain ⟨hmem, hnot, -⟩ := htidy.busy t p stage hjob
    cases hold : fs₀.names l with
    | none =>
      -- somebody has made this object: the file itself, which is not that far
      obtain ⟨q, hq, hqslot, hwho⟩ := hlaid.owned l i hnames hold
      cases hclear.apart p q l hmem hq hslot hqslot
      rcases hwho with hinst | ⟨t', stage', hjob', hdfd'⟩
      · exact absurd hinst hnot
      · cases htidy.distinct t t' p stage stage' hjob hjob'
        cases hjob.symm.trans hjob'
        exact absurd hdfd hdfd'
    | some j =>
      obtain ⟨hdir, hbody⟩ := hclear.untouched p l hmem hslot (hold ▸ nofun)
      cases (hlaid.grows.names l j hold).symm.trans hnames
      exact .inr ⟨hdir, i, rfl, hslot, hnames, .inr ⟨hold, hdir, hbody⟩⟩

/-- What the call that makes a file other than a regular one can answer. -/
inductive MakeResult (cfg : Setup) (fs₀ : Fs) (s : State) (p : Item) : Except Errno Fs → Prop
  | error {e : Errno} : cfg.slot s.fs p = .error e → MakeResult cfg fs₀ s p (.error e)
  | ok {l : Loc} {x : Inode} : cfg.slot s.fs p = .ok l → (hl : s.fs.Free l) →
    x.object = cfg.copyOf fs₀ p → MakeResult cfg fs₀ s p (.ok (s.fs.create l x hl))
  | exist {l : Loc} {i : Nat} : p.stat.type = .dir → fs₀.names l = some i →
    PlacedAt cfg fs₀ s.fs p l i → MakeResult cfg fs₀ s p (.error .exist)
  | inval : p.stat.type = .sock → Setup.sunPath ≤ (text (cfg.path p)).length →
    MakeResult cfg fs₀ s p (.error .inval)

section
variable (hready : Ready cfg fs₀) (htidy : Tidy cfg jobs s) (hlaid : Laid cfg fs₀ s)
  (hclear : Clear cfg fs₀ s.fs)

include hready htidy hlaid hclear

theorem makeObject_result (hjob : s.job t = some (p, stage)) (hdfd : stage.dfd = none)
    (body : Body) (perm : Nat) (hx : ⟨body, perm, cfg.uid, cfg.gid⟩ = cfg.copyOf fs₀ p) :
    MakeResult cfg fs₀ s p (s.fs.makeObject cfg.cwd (cfg.path p) (cfg.node body perm)) := by
  cases hslot : cfg.slot s.fs p with
  | error e =>
    rw [Fs.makeObject_error hslot]
    exact .error hslot
  | ok l =>
    rcases place_free hready htidy hlaid hclear hjob hdfd hslot with hl | ⟨hdir, i, hi, hplaced⟩
    · rw [Fs.makeObject_free hslot hl]
      exact .ok hslot hl hx
    · rw [Fs.makeObject_exist hslot (hplaced.names ▸ nofun)]
      exact .exist hdir hi hplaced

/-- What the call that makes an object can come to -/
theorem make_result (hjob : s.job t = some (p, .make)) :
    MakeResult cfg fs₀ s p (cfg.make s.fs p) := by
  have hobject := makeObject_result hready htidy hlaid hclear hjob rfl
  unfold Setup.make
  cases htype : p.stat.type <;> dsimp only
  case reg => exact absurd htype (hlaid.fits t p _ hjob)
  case lnk =>
    have hmem := (htidy.busy t p _ hjob).1
    obtain ⟨target, htarget, -⟩ := (hready.sourced p hmem).target htype
    rw [htarget]
    exact hobject _ _ (by simp only [Setup.copyOf, htype, htarget, Option.getD_some])
  case sock =>
    split
    · next hlen =>
      have hresult := hobject .sock 0o777 (by simp only [Setup.copyOf, htype])
      unfold Fs.bindSocket
      cases hmake : s.fs.makeObject cfg.cwd (cfg.path p) (cfg.node .sock 0o777) with
      | ok fs =>
        rw [hmake] at hresult
        exact hresult
      | error e =>
        rw [hmake] at hresult
        cases hresult with
        | error hslot =>
          rcases Fs.slot_error hslot with rfl | rfl | rfl <;> exact .error hslot
        | exist hdir => cases htype.symm.trans hdir
        | inval hsock hlong => exact .inval hsock hlong
    · next hlen => exact .inval htype (not_lt.1 hlen)
  all_goals exact hobject _ _ (by simp only [Setup.copyOf, htype])

/-- The call of `remove` is an event. -/
theorem remove_event {target : Option Item} (hjob : s.job t = some (p, .remove target))
    (hstep : callStep cfg s t p c (.remove target) = some s') : Event cfg fs₀ jobs s t s' := by
  have hfits := hlaid.fits t p _ hjob
  -- there is nothing to remove, so the next call is made
  have hnext (hstep : some (s.goto t p (Setup.afterRemove p target)) = some s') :
      Event cfg fs₀ jobs s t s' := by
    cases hstep
    cases target with
    | none => exact .advance hjob rfl (dfd_first p) (first_fits p)
    | some q => exact .advance hjob rfl rfl hfits
  unfold callStep at hstep
  cases hslot : cfg.slot s.fs p with
  | error e =>
    rw [Fs.remove_error hslot] at hstep
    rcases Fs.slot_error hslot with rfl | rfl | rfl
    · exact hnext hstep
    · cases hstep
      exact .fatal ⟨p, _, hjob, .inl ⟨_, hslot, nofun⟩⟩
    · cases hstep
      exact .fatal ⟨p, _, hjob, .inl ⟨_, hslot, nofun⟩⟩
  | ok l =>
    rcases place_free hready htidy hlaid hclear hjob rfl hslot with hl | ⟨hdir, -⟩
    · rw [Fs.remove_free hslot hl.empty] at hstep
      exact hnext hstep
    · cases target with
      | none => exact absurd hdir hfits
      | some q => cases hdir.symm.trans hfits.1

/-- A call that makes an object is an event. -/
theorem make_event (hjob : s.job t = some (p, .make))
    (hstep : callStep cfg s t p c .make = some s') : Event cfg fs₀ jobs s t s' := by
  have hresult := make_result hready htidy hlaid hclear hjob
  unfold callStep at hstep
  generalize cfg.make s.fs p = r at hresult hstep
  cases hresult with
  | error hslot =>
    rcases Fs.slot_error hslot with rfl | rfl | rfl <;> cases hstep
    · exact .missing hjob rfl hslot
    · exact .fatal ⟨p, _, hjob, .inl ⟨_, hslot, nofun⟩⟩
    · exact .fatal ⟨p, _, hjob, .inl ⟨_, hslot, nofun⟩⟩
  | ok hslot hl hx =>
    cases hstep
    exact .made hjob rfl hslot hl hx
  | exist hdir hi hplaced =>
    cases hstep
    exact .skip hjob rfl hi hplaced
  | inval hsock hlong =>
    cases hstep
    exact .fatal ⟨p, _, hjob, .inr ⟨hsock, hlong⟩⟩

theorem access_event (hjob : s.job t = some (p, .access))
    (hstep : callStep cfg s t p c .access = some s') : Event cfg fs₀ jobs s t s' := by
  have hreg : p.stat.type = .reg := hlaid.fits t p _ hjob
  unfold callStep at hstep
  cases hresolve : s.fs.resolve cfg.cwd (cfg.path p) with
  | error e =>
    rw [hresolve] at hstep
    cases hstep
    exact .advance hjob rfl rfl hreg
  | ok l =>
    obtain ⟨l', hslot, hobj⟩ := Fs.slot_of_resolve (path_ne_nil cfg p) hresolve
    rcases place_free hready htidy hlaid hclear hjob rfl hslot with hl | ⟨hdir, -⟩
    · exact absurd hl.empty (hobj (hlaid.cwd hready))
    · cases hdir.symm.trans hreg

omit hclear in
theorem openSource_event (hjob : s.job t = some (p, .openSource))
    (hstep : callStep cfg s t p c .openSource = some s') : Event cfg fs₀ jobs s t s' := by
  have hreg : p.stat.type = .reg := hlaid.fits t p _ hjob
  obtain ⟨l, hresolve, hnames, -⟩ :=
    (hready.sourced p (htidy.busy t p _ hjob).1).resolve hreg
  have hopen : (s.fs.resolve cfg.cwd p.src).toOption.bind s.fs.names = some p.stat.ino := by
    rw [hlaid.grows.below.resolve hresolve]
    exact hlaid.grows.names l _ hnames
  unfold callStep at hstep
  rw [hopen] at hstep
  cases hstep
  exact .advance hjob rfl rfl ⟨hreg, rfl⟩

theorem creat_event {sfd : Nat} (hjob : s.job t = some (p, .creat sfd))
    (hstep : callStep cfg s t p c (.creat sfd) = some s') : Event cfg fs₀ jobs s t s' := by
  obtain ⟨hreg, rfl⟩ := hlaid.fits t p _ hjob
  unfold callStep at hstep
  cases hslot : cfg.slot s.fs p with
  | error e =>
    rw [Fs.creat_error hslot] at hstep
    rcases Fs.slot_error hslot with rfl | rfl | rfl <;> cases hstep
    · exact .missing hjob rfl hslot
    · exact .fatal ⟨p, _, hjob, .inl ⟨_, hslot, nofun⟩⟩
    · exact .fatal ⟨p, _, hjob, .inl ⟨_, hslot, nofun⟩⟩
  | ok l =>
    rcases place_free hready htidy hlaid hclear hjob rfl hslot with hl | ⟨hdir, -⟩
    · rw [Fs.creat_free hslot hl] at hstep
      cases hstep
      exact .opened hjob rfl hreg hslot hl rfl
    · cases hdir.symm.trans hreg

omit hready hclear in
theorem allocate_event {sfd dfd : Nat} (hsourced : ∀ p ∈ cfg.files, Sourced cfg fs₀ p)
    (hjob : s.job t = some (p, .allocate sfd dfd))
    (hstep : callStep cfg s t p c (.allocate sfd dfd) = some s') : Event cfg fs₀ jobs s t s' := by
  obtain ⟨hreg, rfl, l, hopen⟩ := hlaid.fits t p _ hjob
  have hsize := (hsourced p (htidy.busy t p _ hjob).1).size hreg
  have hcontent : (s.fs.inodes dfd).body.content = [] := by
    rw [show (s.fs.inodes dfd).body = .reg [] from congrArg Object.body hopen.object]
    rfl
  simp only [callStep, hcontent, hsize] at hstep
  cases hstep
  split
  · refine .copying hjob rfl hopen (.inr rfl) (inv_startCopy ?_)
    rw [List.nil_append, List.length_replicate]
    exact Nat.sub_le _ _
  · exact .copying hjob rfl hopen (.inl ⟨rfl, rfl⟩) (inv_startCopy (Nat.zero_le _))

omit hready hclear in
/-- A step of a copy is an event. -/
theorem copy_event {sfd dfd : Nat} {copy : Copy} (hsourced : ∀ p ∈ cfg.files, Sourced cfg fs₀ p)
    (hjob : s.job t = some (p, .copy sfd dfd copy))
    (hstep : callStep cfg s t p c (.copy sfd dfd copy) = some s') : Event cfg fs₀ jobs s t s' := by
  obtain ⟨hreg, rfl, l, dst, hopen, hinv⟩ := hlaid.fits t p _ hjob
  have hsource := hsourced p (htidy.busy t p _ hjob).1
  obtain ⟨-, -, -, hlt, -⟩ := hsource.resolve hreg
  have hcontent : (s.fs.inodes dfd).body.content = dst := by
    rw [show (s.fs.inodes dfd).body = .reg dst from congrArg Object.body hopen.object]
    rfl
  cases c with
  | answer a =>
    simp only [callStep, hcontent, hlaid.old _ hlt, hsource.size hreg] at hstep
    obtain ⟨⟨methods, dst', next⟩, hcopy, hstep⟩ := Option.bind_eq_some_iff.1 hstep
    obtain ⟨hmore, hend⟩ := hinv.step hcopy
    cases next with
    | some copy' =>
      cases hstep
      exact .copying hjob rfl hopen (.inr rfl) (hmore copy' rfl)
    | none =>
      cases hstep
      cases hend rfl
      exact .copied hjob rfl hreg hopen
  | _ => cases hstep

/-- The call of `link` is an event. -/
theorem link_event (hjob : s.job t = some (p, .link q))
    (hstep : callStep cfg s t p c (.link q) = some s') : Event cfg fs₀ jobs s t s' := by
  obtain ⟨hreg, hq, hstat⟩ := hlaid.fits t p _ hjob
  have hcopy (hstep : some (s.goto t p (cfg.installFile p)) = some s') :
      Event cfg fs₀ jobs s t s' := by
    cases hstep
    exact .advance hjob rfl (dfd_installFile p) (installFile_fits p)
  obtain ⟨l₀, i, hplaced⟩ := hlaid.placed q hq
  have hqreg : q.stat.type = .reg := hstat ▸ hreg
  have hfile : (s.fs.inodes i).body ≠ .dir := by
    rcases hplaced.made with ⟨-, -, hmade⟩ | ⟨-, hdir, -⟩
    · rw [show (s.fs.inodes i).body = _ from congrArg Object.body hmade]
      simp only [Setup.copyOf, hqreg]
      exact nofun
    · cases hdir.symm.trans hqreg
  simp only [callStep] at hstep
  split at hstep
  · exact hcopy hstep
  · cases hslot : cfg.slot s.fs p with
    | error e =>
      rw [Fs.link_error hplaced.slot hplaced.names hslot] at hstep
      have hfatal : Fatal cfg s t := ⟨p, _, hjob, .inl ⟨e, hslot, fun _ => ⟨q, rfl⟩⟩⟩
      rcases Fs.slot_error hslot with rfl | rfl | rfl <;> cases hstep <;> exact .fatal hfatal
    | ok l =>
      rcases place_free hready htidy hlaid hclear hjob rfl hslot with hl | ⟨hdir, -⟩
      · rw [Fs.link_free hplaced.slot hplaced.names hfile hslot hl] at hstep
        cases hstep
        exact .linked hjob hq hreg hstat hplaced hslot hl
      · cases hdir.symm.trans hreg

/-- Every call of a thread is an event. -/
theorem call_event (hjob : s.job t = some (p, stage))
    (hstep : callStep cfg s t p c stage = some s') :
    Event cfg fs₀ jobs s t s' := by
  cases stage with
  | remove => exact remove_event hready htidy hlaid hclear hjob hstep
  | make => exact make_event hready htidy hlaid hclear hjob hstep
  | access => exact access_event hready htidy hlaid hclear hjob hstep
  | openSource => exact openSource_event hready htidy hlaid hjob hstep
  | creat => exact creat_event hready htidy hlaid hclear hjob hstep
  | allocate => exact allocate_event htidy hlaid hready.sourced hjob hstep
  | copy => exact copy_event htidy hlaid hready.sourced hjob hstep
  | link => exact link_event hready htidy hlaid hclear hjob hstep

/-! ## Decisions -/

omit hready hlaid hclear in
theorem Tidy.all_idle (h : ∀ t', s.phase.TakesPart cfg jobs t' → s.job t' = none) (t' : Nat) :
    s.job t' = none := by
  by_contra hbusy
  exact hbusy (h t' (htidy.takesPart t' hbusy))

omit hready hlaid hclear in
/-- What `main` or a worker decides between two calls -/
theorem decision_of_controlStep (hidle : s.job t = none)
    (hstep : controlStep cfg s t jobs = some s') :
    Decision cfg jobs s t s' := by
  have hturn := htidy.inTurn
  have hall := htidy.all_idle
  unfold controlStep at hstep
  cases hphase : s.phase with
  | dirs todo =>
    rw [hphase] at hturn hall
    cases todo <;> simp only [hphase] at hstep <;> split at hstep
    case nil.isTrue ht =>
      cases hstep
      exact .enter (hall fun t' ht' => ht'.trans ht.symm ▸ hidle) (.inl ⟨hphase, rfl⟩)
    case cons.isTrue p todo ht =>
      cases hstep
      refine .file (List.mem_append_left _ (hturn.subset (.head _))) ?_ ?_ <;> rw [hphase]
      · exact ht
      · rfl
    all_goals cases hstep
  | pool todo =>
    rw [hphase] at hturn hall
    cases todo <;> simp only [hphase] at hstep <;> split at hstep
    case nil.isTrue ht =>
      cases hstep
      exact .enter (hall ht.2) (.inr ⟨hphase, rfl⟩)
    case cons.isTrue p todo ht =>
      cases hstep
      refine .file (List.mem_append_right _ (hturn.subset (.head _))) ?_ ?_ <;> rw [hphase]
      · exact ht
      · rfl
    all_goals cases hstep
  | hardlinks todo =>
    rw [hphase] at hturn hall
    cases todo <;> simp only [hphase] at hstep <;> split at hstep
    case nil.isTrue ht =>
      cases hstep
      exact .ended (hall fun t' ht' => ht'.trans ht.symm ▸ hidle) hphase
    case cons.isTrue e todo ht =>
      cases hstep
      refine .hardlink (hturn.subset (.head _)) ?_ ?_ <;> rw [hphase]
      · exact ht
      · rfl
    all_goals cases hstep
  | uninstalled | done | exit =>
    rw [hphase] at hstep
    cases hstep

/-- Taking up a hard link is an event. -/
theorem hardlink_event {ph : Phase} (hidle : s.job t = none)
    (hmem : (p, q) ∈ cfg.collector.hardlinks)
    (hpart : s.phase.TakesPart cfg jobs t) (hpop : s.phase.pop = some (p, ph))
    (hp : p ∉ s.installed) :
    Event cfg fs₀ jobs s t (installHardlink cfg { s with phase := ph } t p q) := by
  unfold installHardlink
  split
  · exact .take hidle hpart hpop hp (dfd_installFile p) (installFile_fits p)
  · next hq =>
    have hfiles := (classified cfg).mem_hardlinks hmem
    obtain ⟨hreg, hroot, hsame⟩ := (classified cfg).hardlinks p q hmem
    have hq' : q ∈ s.installed := not_not.1 hq
    have hstat : q.stat = p.stat := by
      refine (hready.sourced p hfiles).stat_eq (hready.sourced q (htidy.mem q hq')) ?_
      unfold sameInode at hsame
      rw [Bool.and_eq_true, decide_eq_true_eq, decide_eq_true_eq] at hsame
      exact hsame.2.symm
    split
    · next hpath =>
      -- two files of one path would lead to the same place
      obtain ⟨l, i, hplaced⟩ := hlaid.placed q hq'
      have hslot : cfg.slot s.fs p = .ok l := by
        unfold Setup.slot
        rw [hpath]
        exact hplaced.slot
      cases hclear.apart p q l hfiles (htidy.mem q hq') hslot hplaced.slot
      exact absurd hq' hp
    · refine .take hidle hpart hpop hp ?_ ?_ <;> split
      · rfl
      · rfl
      · exact ⟨hreg, hq', hstat⟩
      · exact ⟨hreg, hq', hstat⟩

/-- Every decision is an event. -/
theorem control_event (hidle : s.job t = none) (hstep : controlStep cfg s t jobs = some s') :
    Event cfg fs₀ jobs s t s' := by
  cases decision_of_controlStep htidy hidle hstep with
  | file _ hpart hpop =>
    split
    · next hp => exact .pass hpop hp
    · next hp => exact .take hidle hpart hpop hp (dfd_installFile _) (installFile_fits _)
  | hardlink hmem hpart hpop =>
    split
    · next hp => exact .pass hpop hp
    · next hp => exact hardlink_event hready htidy hlaid hclear hidle hmem hpart hpop hp
  | enter hall hph => exact .enter hall hph
  | ended hall hphase => exact .ended hall hphase

/-- Every step of the system is an event. -/
theorem step_event (hstep : step cfg s t jobs c = some s') : Event cfg fs₀ jobs s t s' := by
  unfold step at hstep
  split at hstep
  · cases hstep
  · cases hstep
  · cases hstep
  · cases hjob : s.job t with
    | none =>
      rw [hjob] at hstep
      exact control_event hready htidy hlaid hclear hjob hstep
    | some j =>
      rw [hjob] at hstep
      exact call_event hready htidy hlaid hclear hjob hstep

end

end

end MakeInitrd.Put
