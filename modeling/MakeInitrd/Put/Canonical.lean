import MakeInitrd.Put.Closure

/-!
# `initrd-put` on a file system

`enqueue_canonicalized_path` resolves a path itself, component by component, so that it sees the
symlinks on the way. With it the questions of the main loop are answered by one file system that
holds the sources and the destination (`World`). All the paths that can ever be queued are those of
the objects in it and those that files name as their dependencies, so there are finitely many.
-/

namespace MakeInitrd.Put

open Posix Loop List

/-- `MAXSYMLINKS` -/
def maxSymlinks : Nat := 20

/-- `suffix_requires_dir_check`, for what follows a component. -/
def suffixRequiresDirCheck : Path → Bool
  | [] => false
  | c :: cs =>
    if c = [] ∨ c = dot then cs = [] || suffixRequiresDirCheck cs
    else c = dotDot

/-- What is found for a component that is no symlink lets the loop go on: `dir_check` if what
follows requires it, otherwise it has to exist. -/
def passes (b : Option Body) (cs : Path) : Bool :=
  if suffixRequiresDirCheck cs then b = some .dir else b.isSome

theorem ne_none_of_passes {b : Option Body} {cs : Path} (h : passes b cs) : b ≠ none := by
  rintro rfl
  unfold passes at h
  split at h <;> cases h

/-- The loop over the components, up to the next symlink; `follow` goes on with its target. `dest`
is what `rname` holds, and the symlinks met are returned with it. -/
def canonFrom (look : Loc → Option Body) (follow : Loc → Path → Option (List Loc × Loc))
    (dest : Loc) :
    Path → Option (List Loc × Loc)
  | [] => some ([], dest)
  | c :: cs =>
    if c = [] ∨ c = dot then canonFrom look follow dest cs
    else if c = dotDot then canonFrom look follow dest.dropLast cs
    else
      match look (dest ++ [c]) with
      | some (.link t) =>
        (follow (if isAbsolute t then [] else dest) (t ++ cs)).map fun (links, r) =>
          ((dest ++ [c]) :: links, r)
      | b =>
        if passes b cs then canonFrom look follow (dest ++ [c]) cs else none

/-- The loop, with at most `n` symlinks. -/
def canon (look : Loc → Option Body) : Nat → Loc → Path → Option (List Loc × Loc)
  | 0 => canonFrom look fun _ _ => none
  | n + 1 => canonFrom look (canon look n)

/-- What `initrd-put` works on. -/
structure World where
  fs : Fs
  cwd : Loc
  cwd_dir : fs.body? cwd = some .dir
  destdir : Loc
  removePrefix : Option Path
  excluded : Path → Bool
  force : Bool
  /-- what the regular file at a location depends on -/
  deps : Loc → Option (List Path)
  /-- what `fts_read` returns for a directory -/
  walk : Path → List (Path × Stat)

namespace World

variable (world : World)

/-- `enqueue_canonicalized_path` up to the enqueueing. -/
def canonicalize (name : Path) : Option (List Path × Path) :=
  if name = [[]] then none
  else
    (canon world.fs.body? maxSymlinks (if isAbsolute name then [] else world.cwd) name).map
      fun (links, r) => (links.map Loc.path, Loc.path r)

/-- The answers of the file system. -/
def env : Env where
  removePrefix := world.removePrefix
  excluded := world.excluded
  force := world.force
  dest p :=
    match world.fs.lstat world.cwd (concat (Loc.path world.destdir) p) with
    | .error .noent => .absent
    | .error _ => .error
    | .ok st => if st.type = .dir then .directory else .nonDirectory
  lstat p := (world.fs.lstat world.cwd p).toOption
  readlink := world.fs.readlink world.cwd
  canonicalize := world.canonicalize
  walk := world.walk
  deps p := (world.fs.slot world.cwd p).toOption.bind world.deps

end World

/-! ## Finitely many paths -/

section

variable {fs : Fs} {dest r : Loc} {links : List Loc} {p : Path}

/-- What a resolution passes through is there. -/
theorem canonFrom_exists {follow : Loc → Path → Option (List Loc × Loc)}
    (hfollow : ∀ d q ls s, fs.body? d ≠ none → follow d q = some (ls, s) → ∀ l, l ∈ ls ∨ l = s →
      fs.body? l ≠ none)
    (hdest : fs.body? dest ≠ none) (h : canonFrom fs.body? follow dest p = some (links, r)) :
    ∀ l, l ∈ links ∨ l = r → fs.body? l ≠ none := by
  induction p generalizing dest links with
  | nil =>
    cases h
    rintro l (hl | rfl)
    · cases hl
    · exact hdest
  | cons c cs ih =>
    unfold canonFrom at h
    split at h
    · exact ih hdest h
    split at h
    · exact ih (fs.body?_of_prefix ( dropLast_prefix dest) hdest) h
    split at h
    · next t hlink =>
      obtain ⟨⟨ls, s⟩, hfol, heq⟩ := Option.map_eq_some_iff.1 h
      cases heq
      have hbase : fs.body? (if isAbsolute t then [] else dest) ≠ none := by
        split
        · exact fs.body?_of_prefix nil_prefix hdest
        · exact hdest
      have hrest := hfollow _ _ ls r hbase hfol
      rintro l (hl | hl)
      · rcases mem_cons.1 hl with rfl | hl
        · rw [hlink]
          exact nofun
        · exact hrest l (.inl hl)
      · exact hrest l (.inr hl)
    · next b _ =>
      split at h
      · next hcheck =>
        exact ih (ne_none_of_passes hcheck) h
      · cases h

theorem canon_exists {n : Nat} (hdest : fs.body? dest ≠ none)
    (h : canon fs.body? n dest p = some (links, r)) :
    ∀ l, l ∈ links ∨ l = r → fs.body? l ≠ none := by
  induction n generalizing dest p links r with
  | zero => exact canonFrom_exists (fun _ _ _ _ _ hnone => nomatch (hnone : none = some _)) hdest h
  | succ n ih => exact canonFrom_exists (fun _ _ _ _ hd hf => ih hd hf) hdest h

variable {world : World} {args : List Path} {x y : Path}

/-- The path of an object. -/
def World.Names (world : World) (y : Path) : Prop :=
  ∃ l : Loc, world.fs.body? l ≠ none ∧ y = Loc.path l

/-- A part of a path that some file depends on. -/
def World.DependencyPart (world : World) (y : Path) : Prop :=
  ∃ l ds, world.fs.body? l ≠ none ∧ world.deps l = some ds ∧ ∃ d ∈ ds, y <+: d

theorem World.resolves_names (h : world.env.Resolves x y) : world.Names y := by
  obtain ⟨links, r, hc, hy⟩ := h
  simp only [World.env, World.canonicalize] at hc
  split at hc
  · cases hc
  obtain ⟨⟨ls, s⟩, hcanon, heq⟩ := Option.map_eq_some_iff.1 hc
  cases heq
  have hstart : world.fs.body? (if isAbsolute x then [] else world.cwd) ≠ none := by
    split
    · exact world.fs.body?_of_prefix nil_prefix (by rw [world.cwd_dir]; exact nofun)
    · rw [world.cwd_dir]
      exact nofun
  have hall := canon_exists hstart hcanon
  rcases hy with hy | rfl
  · obtain ⟨l, hl, rfl⟩ := mem_map.1 hy
    exact ⟨l, hall l (.inl hl), rfl⟩
  · exact ⟨s, hall s (.inr rfl), rfl⟩

theorem World.Names.parent (h : world.Names x) (hp : parent? x = some y) : world.Names y := by
  obtain ⟨l, hl, rfl⟩ := h
  have hy := parent?_eq_some hp
  cases l with
  | nil => cases hp
  | cons n l =>
    cases l with
    | nil => cases hp
    | cons m l =>
      refine ⟨(n :: m :: l).dropLast, world.fs.body?_of_prefix ( dropLast_prefix _) hl, ?_⟩
      rw [hy]
      rfl

theorem World.slot_of_lstat (world : World) {st : Stat} (h : world.env.lstat x = some st) :
    ∃ l, (world.fs.slot world.cwd x).toOption = some l ∧ world.fs.stat? l = some st := by
  simp only [World.env] at h
  cases hl : world.fs.lstat world.cwd x with
  | error e =>
    rw [hl] at h
    cases h
  | ok st' =>
    rw [hl] at h
    cases h
    obtain ⟨l, hslot, hst⟩ := Fs.lstat_eq_ok hl
    exact ⟨l, by rw [hslot]; rfl, hst⟩

theorem World.names_or_part (h : world.env.Member args y) :
    world.Names y ∨ world.DependencyPart y := by
  induction h with
  | argument _ hr _ => exact .inl (resolves_names hr)
  | @leads x y _ hl _ ih =>
    rcases hl with ⟨-, hp⟩ | ⟨st, hst, ⟨-, hr⟩ | ⟨-, ds, hds, hy⟩⟩
    · rcases ih with hx | ⟨l, ds, hl, hds, d, hd, hx⟩
      · exact .inl (hx.parent hp)
      · refine .inr ⟨l, ds, hl, hds, d, hd, ?_⟩
        rw [parent?_eq_some hp]
        exact ( dropLast_prefix x).trans hx
    · exact .inl (resolves_names hr)
    · obtain ⟨l, hslot, hdeps⟩ := Option.bind_eq_some_iff.1 hds
      obtain ⟨l', hslot', hstat⟩ := world.slot_of_lstat hst
      cases hslot.symm.trans hslot'
      obtain ⟨b, hb, -⟩ := world.fs.stat?_type hstat
      exact .inr ⟨l, ds, by rw [hb]; exact nofun, hdeps, y, hy, prefix_refl y⟩

/-- The closure of the arguments is finite. -/
theorem World.finite_member (world : World) (args : List Path) :
    {y | world.env.Member args y}.Finite := by
  have hlocs : {l | world.fs.body? l ≠ none}.Finite := by
    simpa only [ne_eq, Fs.body?_eq_none] using world.fs.finite
  have hnames : {y | world.Names y}.Finite := by
    refine (hlocs.image Loc.path).subset ?_
    rintro y ⟨l, hl, rfl⟩
    exact ⟨l, hl, rfl⟩
  have hparts : {y | world.DependencyPart y}.Finite := by
    have hprefixes (d : Path) : {y | y <+: d}.Finite := by
      refine (d.inits.finite_toSet).subset fun y hy => ?_
      exact (mem_inits y d).2 hy
    have hof (l : Loc) : {y | ∃ ds, world.deps l = some ds ∧ ∃ d ∈ ds, y <+: d}.Finite := by
      cases hds : world.deps l with
      | none => simp
      | some ds =>
        refine ((finite_toSet ds).biUnion fun d _ => hprefixes d).subset ?_
        rintro y ⟨ds', hds', d, hd, hy⟩
        cases hds'
        exact Set.mem_biUnion hd hy
    refine (hlocs.biUnion fun l _ => hof l).subset ?_
    rintro y ⟨l, ds, hl, h⟩
    exact Set.mem_biUnion hl ⟨ds, h⟩
  exact (hnames.union hparts).subset fun y hy => names_or_part hy

/-- The main loop exits with an error or ends, and then each path of the closure is in the tree once
and no other path is. -/
theorem collects_closure (world : World) (args : List Path) (hdir : world.env.NoDirectory args) :
    ∃ r, Collects world.env args r ∧ (r = .exit ∨ ∃ tree nr, r = .finished tree nr ∧
      (tree.map File.src).Nodup ∧ (∀ y, y ∈ tree.map File.src ↔ world.env.Member args y) ∧
      nr = {y | world.env.Member args y}.ncard) := by
  obtain ⟨r, hr, hwhy⟩ := collects_of_finite hdir (world.finite_member args)
  refine ⟨r, hr, hwhy.imp_right ?_⟩
  rintro ⟨tree, rfl, hnd, hmem⟩
  refine ⟨tree, _, rfl, hnd, hmem, ?_⟩
  have hset : {y | world.env.Member args y} = ((tree.map File.src).toFinset : Set Path) := by
    ext y
    rw [Set.mem_ofPred_eq, ← hmem, Finset.mem_coe, mem_toFinset]
  rw [hset, Set.ncard_coe_finset, toFinset_card_of_nodup hnd, length_map]

def sampleInode (body : Body) : Inode :=
  ⟨body, 0o755, 0, 0, 8, 1⟩

/-- A symlink `l` to the script `s`, which needs the interpreter `i`. -/
def sampleWorld : World where
  fs := Fs.ofList [([], 1), ([[108]], 2), ([[115]], 3), ([[105]], 4), ([[100]], 5)]
    (fun i => sampleInode (match i with
      | 2 => .link [[115]]
      | 3 => .reg [35, 33]
      | 4 => .reg []
      | _ => .dir)) 6 (by decide) (by decide) (by decide)
  cwd := []
  cwd_dir := by decide
  destdir := [[100]]
  removePrefix := none
  excluded := fun _ => false
  force := false
  deps := fun l => if l = [[115]] then some [[[], [105]]] else some []
  walk := fun _ => []

theorem sampleWorld_noDirectory : sampleWorld.env.NoDirectory [[[], [108]]] := by
  intro a ha links rname hc st hst
  have hcanon : sampleWorld.env.canonicalize [[], [108]] = some ([[[], [108]]], [[], [115]]) := by
    decide
  have htype : (sampleWorld.env.lstat [[], [115]]).map Stat.type = some .reg := by decide
  rw [mem_singleton.1 ha, hcanon] at hc
  cases hc
  rw [hst] at htype
  rw [Option.some.inj htype]
  exact nofun

theorem collects_closure_sample : sampleWorld.env.NoDirectory [[[], [108]]] ∧
    ∃ tree nr, Collects sampleWorld.env [[[], [108]]] (.finished tree nr) ∧
      (tree.map File.src).Nodup ∧
      (∀ y, y ∈ tree.map File.src ↔ sampleWorld.env.Member [[[], [108]]] y) ∧
      nr = {y | sampleWorld.env.Member [[[], [108]]] y}.ncard := by
  refine ⟨sampleWorld_noDirectory, ?_⟩
  have hrun : ((enqueueArguments sampleWorld.env [[[], [108]]]).bind
      (run (mainRound sampleWorld.env) 6)).any (fun r => r ≠ .exit) = true := by decide +kernel
  obtain ⟨r', hr', hne⟩ := (Option.any_eq_true _ _).1 hrun
  obtain ⟨r, hr, rfl | ⟨tree, nr, rfl, h⟩⟩ :=
    collects_closure sampleWorld [[[], [108]]] sampleWorld_noDirectory
  · exact absurd ((collects_of_run hr').unique hr) (of_decide_eq_true hne)
  · exact ⟨tree, nr, hr, h⟩

end

end MakeInitrd.Put
