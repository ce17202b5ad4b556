import MakeInitrd.Put.Canonical

/-!
# Requested directories

An argument that resolves to a directory is queued with `recursive` set, and the directory is walked
when its turn comes. But resolving a symlink that leads to it clears the flag again
(`enqueue_canonicalized_path` with `add_recursively` false), and if that happens while the directory
is still waiting it is not walked (`collects_whole`).
-/

namespace MakeInitrd.Put

open Posix Loop

/-- An argument resolves to the directory `dir`. -/
def Env.Requested (env : Env) (args : List Path) (dir : Path) : Prop :=
  ∃ a ∈ args, ∃ links, env.canonicalize a = some (links, dir) ∧ ∃ st, env.lstat dir = some st ∧
    st.type = .dir

/-- Everything below the requested directories is in the tree, unless it is excluded or in the
destination already. -/
def Whole (env : Env) (args : List Path) (tree : List File) : Prop :=
  ∀ dir, env.Requested args dir → ∀ x ∈ (env.walk dir).map Prod.fst, env.Admits x →
    x ∈ tree.map File.src

/-- The file at `queue` is not a symlink to a requested directory that still waits in the queue. -/
def Calm (env : Env) (args : List Path) (w : Work) : Prop :=
  ∀ q next, w.rest = q :: next → ¬env.Present q.src → ∀ st, env.statOf q = some st →
    st.type = .lnk → ∀ links dir, env.canonicalize q.src = some (links, dir) →
      env.Requested args dir → dir ∉ w.paths

variable {env : Env} {args : List Path} {w w' : Work} {dir : Path}

/-- The item of a directory will be walked. -/
def Marked (dir : Path) (f : File) : Prop :=
  f.src = dir → f.recursive = true ∧ f.stat = none

/-- The directory waits to be walked, or has been walked. -/
structure Promised (env : Env) (dir : Path) (w : Work) : Prop extends Consistent env w where
  walks : dir ∈ w.paths ∧ w.All (Marked dir) ∨
    ∀ x ∈ (env.walk dir).map Prod.fst, env.Admits x → x ∈ w.tree.map File.src ∨ x ∈ w.paths

theorem marked_fresh {p : Path} (hp : p ≠ dir) : Marked dir (.fresh p) :=
  fun h => absurd h hp

theorem Promised.walk {q f : File} {next : List File} {w₁ : Work} (h : Promised env dir w)
    (hmarked : w.All (Marked dir)) (hdir : env.Requested args dir) (hq : q.src = dir)
    (hrest : w.rest = q :: next)
    (hpath : Work.enqueuePath { w with tree := env.withDst q :: w.tree } env (env.withDst q) =
      some (f, w₁)) :
    ∀ x ∈ (env.walk dir).map Prod.fst, env.Admits x →
      x ∈ (w.take f w₁).tree.map File.src ∨ x ∈ (w.take f w₁).paths := by
  obtain ⟨st, hst, htaken⟩ := taken hrest h.nodup hpath
  obtain ⟨hrec, hnone⟩ := hmarked q (mem_rest_queue hrest) hq
  obtain ⟨a, -, links, -, st', hlstat, htype⟩ := hdir
  simp only [Env.statOf, hnone, hq, hlstat] at hst
  cases hst
  intro x hx hadm
  exact htaken.requested (.inr (.inl ⟨htype, hrec, hq ▸ hx⟩)) hadm.1

theorem Promised.marked {q f : File} {next : List File} {w₁ : Work}
    (hmem : dir ∈ w.paths) (hmarked : w.All (Marked dir))
    (hcalm : Calm env args w) (hdir : env.Requested args dir) (hrest : w.rest = q :: next)
    (hpresent : ¬env.Present q.src)
    (hpath : Work.enqueuePath { w with tree := env.withDst q :: w.tree } env (env.withDst q) =
      some (f, w₁)) : w₁.All (Marked dir) := by
  have hold : Work.All { w with tree := env.withDst q :: w.tree } (Marked dir) := hmarked
  have hother : ∀ p ∉ w.paths, p ≠ dir := by
    rintro p hp rfl
    exact hp hmem
  refine hold.enqueuePath (fun p hp _ => marked_fresh (hother p hp))
    (fun _ _ _ _ e _ he hsrc => absurd hsrc (hother e.1 he)) ?_ hpath
  intro st hst htype links rname hc
  have hne : rname ≠ dir := by
    rintro rfl
    exact hcalm q next hrest hpresent st hst htype links rname hc hdir hmem
  exact ⟨fun g _ hsrc hg => absurd (hsrc.symm.trans hg) hne, fun _ hg => absurd hg hne⟩

/-- A calm round keeps the promise. -/
theorem Promised.round (h : Promised env dir w) (hcalm : Calm env args w)
    (hdir : env.Requested args dir) (hadm : env.Admits dir) (hround : w.Round env w') :
    Promised env dir w' := by
  have hcons := h.toConsistent.round hround
  rcases h.walks with ⟨hmem, hmarked⟩ | hwalked
  · cases hround with
    | restart hrest _ =>
      have hqueue := queue_restart hrest
      have hpaths : Work.paths { w with ahead := [], rest := w.ahead } = w.paths :=
        congrArg (List.map File.src) hqueue
      exact ⟨hcons, .inl ⟨hpaths ▸ hmem, fun f hf => hmarked f (hqueue ▸ hf)⟩⟩
    | @drop q next hrest hwhy =>
      refine ⟨hcons, .inl ⟨?_, hmarked.drop hrest⟩⟩
      refine (List.mem_cons.1 ((paths_perm_drop hrest).mem_iff.1 hmem)).resolve_left ?_
      rintro rfl
      exact hwhy.elim hadm.2 fun htree => h.apart _ hmem (Work.inTree_iff.1 htree)
    | @take q f next w₁ hrest hpresent _ hpath =>
      by_cases hq : q.src = dir
      · exact ⟨hcons, .inr (h.walk hmarked hdir hq hrest hpath)⟩
      · obtain ⟨st, -, htaken⟩ := taken hrest h.nodup hpath
        refine ⟨hcons, .inl ⟨(htaken.mem dir).2 ⟨fun heq => hq heq.symm, .inl hmem⟩, ?_⟩⟩
        exact (Promised.marked hmem hmarked hcalm hdir hrest hpresent hpath).take
  · exact ⟨hcons, .inr fun x hx hax => h.toConsistent.keeps hround hax.2 (hwalked x hx hax)⟩

theorem promised_enqueueArguments (hw : enqueueArguments env args = some w)
    (hdir : env.Requested args dir) (hadm : env.Admits dir) : Promised env dir w := by
  have hstarted := started_enqueueArguments hw
  obtain ⟨a, ha, links, hc, -⟩ := hdir
  refine ⟨hstarted.inv.toConsistent, .inl ⟨?_, fun f hf hsrc => ⟨?_, (hstarted.plain f hf).stat⟩⟩⟩
  · exact (hstarted.mem dir).2 ⟨⟨a, ha, links, dir, hc, .inr rfl⟩, hadm.1⟩
  · exact (hstarted.recursive f hf).2 ⟨a, ha, links, hsrc ▸ hc⟩

/-- A run of the main loop that is calm throughout copies the requested directories whole, if none
with something to copy below it is excluded or in the destination as something else. -/
theorem collects_whole (env : Env) (args : List Path) (w : Work) (tree : List File) (nr : Nat)
    (hadm : ∀ dir, env.Requested args dir →
      (∃ x ∈ (env.walk dir).map Prod.fst, env.Admits x) → env.Admits dir)
    (hw : enqueueArguments env args = some w)
    (hcalm : ∀ w', Reaches (mainRound env) w w' → Calm env args w')
    (hrun : Returns (mainRound env) w (.finished tree nr)) : Whole env args tree := by
  intro dir hdir x hx hax
  have hadmits := hadm dir hdir ⟨x, hx, hax⟩
  refine hrun.rule_reaches (I := Promised env dir)
    (Q := fun r => ∀ tree nr, r = .finished tree nr → x ∈ tree.map File.src)
    (promised_enqueueArguments hw hdir hadmits) ?_ ?_ tree nr rfl
  · intro w₁ w₂ hreach h hagain
    exact h.round (hcalm w₁ hreach) hdir hadmits (mainRound_again hagain)
  · rintro w₁ r h hdone tree nr rfl
    rcases mainRound_done hdone with hexit | ⟨hfin, hempty⟩
    · cases hexit
    · cases hfin
      rcases h.walks with ⟨hmem, -⟩ | hwalked
      · rw [hempty] at hmem
        cases hmem
      · exact (hwalked x hx hax).resolve_right (by rw [hempty]; exact nofun)

/-! ## A directory and a symlink to it -/

/-- The directory `d` with the file `x`, the symlink `l` to it, and the destination `o`. -/
def linkWorld : World where
  fs := Fs.ofList [([], 1), ([[100]], 2), ([[100], [120]], 3), ([[108]], 4), ([[111]], 5)]
    (fun i => sampleInode (match i with
      | 3 => .reg []
      | 4 => .link [[100]]
      | _ => .dir)) 6 (by decide) (by decide) (by decide)
  cwd := []
  cwd_dir := by decide
  destdir := [[111]]
  removePrefix := none
  excluded := fun _ => false
  force := false
  deps := fun _ => some []
  walk := fun p =>
    if p = [[], [100]] then
      [([[], [100]], ⟨.dir, 0o755, 0, 0, 8, 2, 0, 1⟩),
        ([[], [100], [120]], ⟨.reg, 0o755, 0, 0, 8, 3, 0, 1⟩)]
    else []

/-- A check that shows a state to be calm: what the file at `queue` resolves to does not wait, if
that file is a symlink. -/
def calmCheck (env : Env) (w : Work) : Bool :=
  match w.rest with
  | [] => true
  | q :: _ =>
    (env.statOf q).all fun st => st.type ≠ .lnk || (env.canonicalize q.src).all fun r =>
      r.2 ∉ w.paths

theorem calm_of_check (h : calmCheck env w) : Calm env args w := by
  intro q next hrest _ st hst htype links dir hc _
  simp only [calmCheck, hrest, hst, htype, hc, Option.all_some, ne_eq, not_true_eq_false,
    decide_false, Bool.false_or, decide_eq_true_eq] at h
  exact h

theorem linkWorld_admits (dir : Path)
    (h : linkWorld.env.Requested [[[], [108]], [[], [100]]] dir) : linkWorld.env.Admits dir := by
  obtain ⟨a, ha, links, hc, -⟩ := h
  have hlink : linkWorld.env.canonicalize [[], [108]] = some ([[[], [108]]], [[], [100]]) := by
    decide
  have hself : linkWorld.env.canonicalize [[], [100]] = some ([], [[], [100]]) := by decide
  have hdir : dir = [[], [100]] := by
    rcases List.mem_cons.1 ha with rfl | ha
    · cases hlink.symm.trans hc
      rfl
    · rw [List.mem_singleton.1 ha] at hc
      cases hself.symm.trans hc
      rfl
  subst hdir
  exact ⟨rfl, fun hpresent => absurd hpresent.2 (by decide)⟩

/-- The symlink first: the directory is walked before the symlink is resolved again. -/
theorem collects_whole_link :
    ∃ w tree nr, enqueueArguments linkWorld.env [[[], [108]], [[], [100]]] = some w ∧
      (∀ w', Reaches (mainRound linkWorld.env) w w' →
        Calm linkWorld.env [[[], [108]], [[], [100]]] w') ∧
      Returns (mainRound linkWorld.env) w (.finished tree nr) ∧
      Whole linkWorld.env [[[], [108]], [[], [100]]] tree := by
  have hcheck : (enqueueArguments linkWorld.env [[[], [108]], [[], [100]]]).any (fun w =>
      (trace (mainRound linkWorld.env) 8 w).all (calmCheck linkWorld.env) &&
        (run (mainRound linkWorld.env) 8 w).any (fun r => r ≠ .exit)) = true := by
    decide +kernel
  obtain ⟨w, hw, hboth⟩ := (Option.any_eq_true _ _).1 hcheck
  obtain ⟨hall, hany⟩ := Bool.and_eq_true_iff.1 hboth
  obtain ⟨r, hrun, hne⟩ := (Option.any_eq_true _ _).1 hany
  have hcalm : ∀ w', Reaches (mainRound linkWorld.env) w w' →
      Calm linkWorld.env [[[], [108]], [[], [100]]] w' := fun w' hreach =>
    calm_of_check (List.all_eq_true.1 hall w' (mem_trace hrun hreach))
  cases r with
  | exit => exact absurd rfl (of_decide_eq_true hne)
  | finished tree nr =>
    exact ⟨w, tree, nr, hw, hcalm, ⟨8, hrun⟩,
      collects_whole linkWorld.env _ w tree nr (fun dir h _ => linkWorld_admits dir h) hw hcalm
        ⟨8, hrun⟩⟩

/-- The directory first: when the symlink is resolved again the directory still waits, and the file
in it is not copied. -/
theorem not_collects_whole :
    ∃ tree nr, Collects linkWorld.env [[[], [100]], [[], [108]]] (.finished tree nr) ∧
      ¬Whole linkWorld.env [[[], [100]], [[], [108]]] tree := by
  have hcheck : ((enqueueArguments linkWorld.env [[[], [100]], [[], [108]]]).bind
      (run (mainRound linkWorld.env) 8)).any (fun r =>
        match r with
        | .exit => false
        | .finished tree _ => [[], [100], [120]] ∉ tree.map File.src) = true := by
    decide +kernel
  obtain ⟨r, hrun, hr⟩ := (Option.any_eq_true _ _).1 hcheck
  cases r with
  | exit => cases hr
  | finished tree nr =>
    refine ⟨tree, nr, collects_of_run hrun, fun hwhole => ?_⟩
    have hrequested : linkWorld.env.Requested [[[], [100]], [[], [108]]] [[], [100]] :=
      ⟨[[], [100]], List.mem_cons_self, [], by decide, ⟨.dir, 0o755, 0, 0, 8, 2, 0, 1⟩, by decide,
        rfl⟩
    refine of_decide_eq_true hr (hwhole _ hrequested [[], [100], [120]] (by decide) ⟨rfl, ?_⟩)
    exact fun hpresent => absurd hpresent.2 (by decide)

end MakeInitrd.Put
