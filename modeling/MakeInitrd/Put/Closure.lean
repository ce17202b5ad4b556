import Mathlib.Data.Set.Card
import MakeInitrd.Put.Worklist

/-!
# The tree is the dependency closure

`Env.Member` is the least set of paths that holds what the arguments lead to and is closed under
parents, symlinks and dependencies. The main loop keeps a part of it in the tree and the rest within
reach of the queue (`Inv`); every file it takes into the tree brings it closer to the end, so the
queue runs empty, and then the tree is that set.
-/

namespace MakeInitrd.Put

open Posix Loop List

/-- The paths that become members: neither excluded nor in the destination already. -/
def Env.Admits (env : Env) (y : Path) : Prop :=
  env.excluded y = false ∧ ¬env.Present y

/-- What a member leads to: its parent, up to the removed prefix or the root; the links and the
target of a symlink; the dependencies of a regular file. -/
def Env.Leads (env : Env) (x y : Path) : Prop :=
  (env.removePrefix ≠ some x ∧ parent? x = some y) ∨ ∃ st, env.lstat x = some st ∧
    (st.type = .lnk ∧ env.Resolves x y ∨
        st.type = .reg ∧ ∃ ds, env.deps x = some ds ∧ y ∈ ds)

/-- The dependency closure of the arguments. -/
inductive Env.Member (env : Env) (args : List Path) : Path → Prop
  | argument {a y : Path} : a ∈ args → env.Resolves a y → env.Admits y → Member env args y
  | leads {x y : Path} : Member env args x → env.Leads x y → env.Admits y → Member env args y

/-- No argument resolves to a directory. -/
def Env.NoDirectory (env : Env) (args : List Path) : Prop :=
  ∀ a ∈ args, ∀ links rname, env.canonicalize a = some (links, rname) → ∀ st, env.lstat rname =
    some st → st.type ≠ .dir

variable {env : Env} {args : List Path} {w w' : Work}

/-- An item made without a walk, recursive only if an argument resolves to it. -/
structure Plain (env : Env) (args : List Path) (f : File) : Prop where
  stat : f.stat = none
  argument : f.recursive → ∃ a ∈ args, ∃ links, env.canonicalize a = some (links, f.src)

theorem plain_fresh (p : Path) : Plain env args (.fresh p) :=
  ⟨rfl, nofun⟩

theorem Plain.lstat {f : File} (h : Plain env args f) {st : Stat} (hst : env.statOf f = some st) :
    env.lstat f.src = some st := by
  simpa only [Env.statOf, h.stat] using hst

structure Inv (env : Env) (args : List Path) (w : Work) : Prop extends Consistent env w where
  tree_member : ∀ y ∈ w.tree.map File.src, env.Member args y
  member : ∀ y ∈ w.paths, env.Admits y → env.Member args y
  start : ∀ a ∈ args, ∀ y, env.Resolves a y → env.Admits y → y ∈ w.tree.map File.src ∨ y ∈ w.paths
  closed : ∀ x ∈ w.tree.map File.src, ∀ y, env.Leads x y → env.Admits y →
    y ∈ w.tree.map File.src ∨ y ∈ w.paths
  plain : w.All (Plain env args)

theorem Inv.tree_iff (h : Inv env args w) (hempty : w.paths = []) (y : Path) :
    y ∈ w.tree.map File.src ↔ env.Member args y := by
  refine ⟨h.tree_member y, fun hy => ?_⟩
  induction hy with
  | argument ha hr hadm =>
    exact (h.start _ ha _ hr hadm).resolve_right (by rw [hempty]; exact nofun)
  | leads _ hl hadm ih =>
    exact (h.closed _ ih _ hl hadm).resolve_right (by rw [hempty]; exact nofun)

/-- What a plain item asks for is what its path leads to: the walk is for directories that were
arguments. -/
theorem Plain.requests_iff {q : File} (h : Plain env args q)
    (hdir : env.NoDirectory args) {st : Stat}
    (hst : env.statOf q = some st) (y : Path) : env.Requests q st y ↔ env.Leads q.src y := by
  have hlstat := h.lstat hst
  have hwalk : ¬(st.type = .dir ∧ q.recursive ∧ y ∈ (env.walk q.src).map Prod.fst) := by
    rintro ⟨htype, hrec, -⟩
    obtain ⟨a, ha, links, hc⟩ := h.argument hrec
    exact hdir a ha links q.src hc st hlstat htype
  simp only [Env.Requests, Env.Leads, hlstat, Option.some.injEq, exists_eq_left',
    or_iff_right hwalk]

/-- Taking a file up adds it and what it leads to. -/
theorem Inv.take {q f : File} {next : List File} {w₁ : Work} (h : Inv env args w)
    (hdir : env.NoDirectory args) (hrest : w.rest = q :: next) (hpresent : ¬env.Present q.src)
    (hpath : Work.enqueuePath { w with tree := env.withDst q :: w.tree } env (env.withDst q) =
      some (f, w₁)) :
    (∀ y ∈ (w.take f w₁).tree.map File.src, env.Member args y) ∧
    (∀ y ∈ (w.take f w₁).paths, env.Admits y → env.Member args y) ∧
    (∀ y, env.Leads q.src y → env.Admits y → y ∈ (w.take f w₁).tree.map File.src ∨
      y ∈ (w.take f w₁).paths) ∧
    (w.take f w₁).All (Plain env args) := by
  have hq := mem_rest_queue hrest
  have hqp : q.src ∈ w.paths := mem_map_of_mem hq
  have hmember : env.Member args q.src :=
    h.member _ hqp ⟨h.not_excluded _ hqp, hpresent⟩
  obtain ⟨st, hst, htaken⟩ := taken hrest h.nodup hpath
  have hrequests := (h.plain q hq).requests_iff hdir hst
  refine ⟨fun y hy => ?_, fun y hy hadm => ?_, fun y hl hadm => ?_, ?_⟩
  · rw [htaken.tree, mem_cons] at hy
    rcases hy with rfl | hy
    · exact hmember
    · exact h.tree_member y hy
  · obtain ⟨-, hy | ⟨hr, -⟩⟩ := (htaken.mem y).1 hy
    · exact h.member y hy hadm
    · exact .leads hmember ((hrequests y).1 hr) hadm
  · exact htaken.requested ((hrequests y).2 hl) hadm.1
  · have hold : Work.All { w with tree := env.withDst q :: w.tree } (Plain env args) := h.plain
    refine (hold.enqueuePath (fun p _ _ => plain_fresh p) ?_ ?_ hpath).take
    · intro hrec st' hst' htype
      obtain ⟨a, ha, links, hc⟩ := (h.plain q hq).argument hrec
      exact absurd htype (hdir a ha links q.src hc st' ((h.plain q hq).lstat hst'))
    · exact fun _ _ _ links rname _ => ⟨fun g hg _ => ⟨hg.stat, nofun⟩, fun _ => ⟨rfl, nofun⟩⟩

/-- Every round of the main loop keeps the invariant. -/
theorem Inv.step (h : Inv env args w) (hdir : env.NoDirectory args) (hround : w.Round env w') :
    Inv env args w' := by
  have hcons := h.toConsistent.round hround
  have hstart : ∀ a ∈ args, ∀ y, env.Resolves a y → env.Admits y →
      y ∈ w'.tree.map File.src ∨ y ∈ w'.paths := fun a ha y hr hadm =>
    h.toConsistent.keeps hround hadm.2 (h.start a ha y hr hadm)
  have hclosed : ∀ x ∈ w.tree.map File.src, ∀ y, env.Leads x y → env.Admits y →
      y ∈ w'.tree.map File.src ∨ y ∈ w'.paths := fun x hx y hl hadm =>
    h.toConsistent.keeps hround hadm.2 (h.closed x hx y hl hadm)
  cases hround with
  | restart hrest _ =>
    have hqueue := queue_restart hrest
    have hpaths : Work.paths { w with ahead := [], rest := w.ahead } = w.paths :=
      congrArg (map File.src) hqueue
    exact ⟨hcons, h.tree_member, hpaths ▸ h.member, hstart, hclosed,
      fun f hf => h.plain f (hqueue ▸ hf)⟩
  | drop hrest _ =>
    exact ⟨hcons, h.tree_member, fun y hy => h.member y
      ((paths_perm_drop hrest).mem_iff.2 (mem_cons_of_mem _ hy)), hstart, hclosed,
      h.plain.drop hrest⟩
  | @take q f next w₁ hrest hpresent _ hpath =>
    obtain ⟨htree, hmem, hleads, hplain⟩ := h.take hdir hrest hpresent hpath
    obtain ⟨st, -, htaken⟩ := taken hrest h.nodup hpath
    refine ⟨hcons, htree, hmem, hstart, fun x hx y hl hadm => ?_, hplain⟩
    rw [htaken.tree, mem_cons] at hx
    rcases hx with rfl | hx
    · exact hleads y hl hadm
    · exact hclosed x hx y hl hadm

/-! ## The command line -/

/-- The queue for some of the arguments. -/
structure Started (env : Env) (args : List Path) (w : Work) : Prop where
  rest : w.rest = []
  tree : w.tree = []
  nr : w.treeFilesNr = 0
  nodup : w.paths.Nodup
  mem (y : Path) : y ∈ w.paths ↔ (∃ a ∈ args, env.Resolves a y) ∧ env.excluded y = false
  plain : w.All (Plain env args)
  recursive : w.All fun f => env.excluded f.src = false ∧
    ((∃ a ∈ args, ∃ links, env.canonicalize a = some (links, f.src)) → f.recursive)

theorem Plain.mono {args' : List Path} {f : File} (h : Plain env args f) (hsub : args ⊆ args') :
    Plain env args' f := by
  refine ⟨h.stat, fun hrec => ?_⟩
  obtain ⟨a, ha, hc⟩ := h.argument hrec
  exact ⟨a, hsub ha, hc⟩

theorem Started.enqueue {a : Path} (h : Started env args w)
    (hw : w.enqueueCanonicalizedPath env a true = some w') : Started env (args ++ [a]) w' := by
  have hgrows := enqueueCanonicalizedPath_grows hw
  have hold : w.All (Plain env (args ++ [a])) := fun f hf =>
    (h.plain f hf).mono (subset_append_left _ _)
  refine ⟨?_, hgrows.tree.trans h.tree, hgrows.nr.trans h.nr, hgrows.nodup h.nodup,
    fun y => ?_, ?_, ?_⟩
  · exact map_eq_nil_iff.1 (hgrows.rest.trans (by rw [h.rest]; rfl))
  · rw [hgrows.mem, h.mem, Env.Open, h.tree]
    simp only [map_nil, not_mem_nil, not_false_eq_true, and_true, mem_append,
      mem_singleton, or_and_right, exists_or, exists_eq_left]
  · refine hold.enqueueCanonicalizedPath (fun p _ _ => plain_fresh p) (fun links rname hc => ?_) hw
    have hmem : a ∈ args ++ [a] := mem_append_right _ mem_cons_self
    exact ⟨fun _ _ hf => hf, fun f hsrc hf => ⟨hf.stat, fun _ => ⟨a, hmem, links, hsrc ▸ hc⟩⟩,
      fun _ _ => ⟨rfl, fun _ => ⟨a, hmem, links, hc⟩⟩⟩
  · refine h.recursive.enqueueCanonicalizedPath (fun p hp hex => ⟨hex, ?_⟩)
      (fun links rname hc => ⟨fun f hother hf => ⟨hf.1, ?_⟩, fun f hsrc hf => ⟨hf.1, fun _ => rfl⟩,
        fun _ hex => ⟨hex, fun _ => rfl⟩⟩) hw
    · rintro ⟨b, hb, links, hc⟩
      exact absurd ((h.mem p).2 ⟨⟨b, hb, links, p, hc, .inr rfl⟩, hex⟩) hp
    · rintro ⟨b, hb, links', hb'⟩
      rcases mem_append.1 hb with hb | hb
      · exact hf.2 ⟨b, hb, links', hb'⟩
      · -- the argument itself resolves to an item that is marked, or to an excluded path
        rw [mem_singleton.1 hb, hc] at hb'
        cases hb'
        exact hother.elim (absurd rfl) fun hex => nomatch hex.symm.trans hf.1

theorem started_foldlM {done : List Path} (h : Started env done w)
    (hw : args.foldlM (fun w a => w.enqueueCanonicalizedPath env a true) w = some w') :
    Started env (done ++ args) w' := by
  induction args generalizing done w with
  | nil =>
    cases hw
    rwa [append_nil]
  | cons a args ih =>
    rw [foldlM_cons, Option.bind_eq_bind, Option.bind_eq_some_iff] at hw
    obtain ⟨w₁, hw₁, hw⟩ := hw
    rw [append_cons]
    exact ih (h.enqueue hw₁) hw

theorem started_enqueueArguments (hw : enqueueArguments env args = some w) :
    Started env args w := by
  have hempty : Started env [] ⟨[], [], [], 0⟩ :=
    ⟨rfl, rfl, rfl, nodup_nil, fun y => by simp [Work.paths, Work.queue],
      fun f hf => (nomatch hf), fun f hf => (nomatch hf)⟩
  exact started_foldlM hempty hw

theorem Started.inv (h : Started env args w) : Inv env args w where
  nr := by rw [h.nr, h.tree]; rfl
  tree_nodup := by rw [h.tree]; exact nodup_nil
  nodup := h.nodup
  apart := by rw [h.tree]; exact fun _ _ => nofun
  tree_member := by rw [h.tree]; exact nofun
  member := by
    intro y hy hadm
    obtain ⟨⟨a, ha, hr⟩, -⟩ := (h.mem y).1 hy
    exact .argument ha hr hadm
  not_excluded := fun y hy => ((h.mem y).1 hy).2
  start := fun a ha y hr hadm => .inr ((h.mem y).2 ⟨⟨a, ha, hr⟩, hadm.1⟩)
  closed := by rw [h.tree]; exact nofun
  plain := h.plain

theorem Inv.length_le (h : Inv env args w) (hfin : {y | env.Member args y}.Finite) :
    w.tree.length ≤ {y | env.Member args y}.ncard := by
  have hsub : ((w.tree.map File.src).toFinset : Set Path) ⊆ {y | env.Member args y} := by
    intro y hy
    exact h.tree_member y (mem_toFinset.1 hy)
  have hcard := Set.ncard_le_ncard hsub hfin
  rwa [Set.ncard_coe_finset, toFinset_card_of_nodup h.tree_nodup, length_map] at hcard

/-- What is left to do: files to take into the tree, then items to go through. -/
noncomputable def workLeft (env : Env) (args : List Path) (w : Work) : Nat × Nat :=
  ({y | env.Member args y}.ncard - w.tree.length, 2 * w.ahead.length + w.rest.length)

theorem Inv.lt (h : Inv env args w) (hdir : env.NoDirectory args)
    (hfin : {y | env.Member args y}.Finite) (hround : w.Round env w') :
    Prod.Lex (· < ·) (· < ·) (workLeft env args w') (workLeft env args w) := by
  have hinv := h.step hdir hround
  cases hround with
  | restart hrest hne =>
    have hpos := length_pos_iff.2 hne
    refine Prod.Lex.right _ ?_
    simp only [hrest, length_nil]
    omega
  | drop hrest _ =>
    refine Prod.Lex.right _ ?_
    simp only [hrest, length_cons]
    omega
  | @take q f next w₁ hrest _ _ _ =>
    refine Prod.Lex.left _ _ ?_
    have hle := hinv.length_le hfin
    have hlen : (w.take f w₁).tree.length = w.tree.length + 1 := rfl
    omega

theorem collects_of_finite (hdir : env.NoDirectory args) (hfin : {y | env.Member args y}.Finite) :
    ∃ r, Collects env args r ∧ (r = .exit ∨ ∃ tree, r = .finished tree tree.length ∧
      (tree.map File.src).Nodup ∧ ∀ y, y ∈ tree.map File.src ↔ env.Member args y) := by
  unfold Collects
  cases hw : enqueueArguments env args with
  | none => exact ⟨.exit, rfl, .inl rfl⟩
  | some w =>
    refine returns_of_wellFounded (I := Inv env args) (workLeft env args) (fun w h => ?_)
      (started_enqueueArguments hw).inv
    cases hround : mainRound env w with
    | again w' =>
      have hagain := mainRound_again hround
      exact .inr ⟨w', rfl, h.step hdir hagain, h.lt hdir hfin hagain⟩
    | done r =>
      refine .inl ⟨r, rfl, ?_⟩
      rcases mainRound_done hround with rfl | ⟨rfl, hempty⟩
      · exact .inl rfl
      · exact .inr ⟨w.tree, by rw [h.nr], h.tree_nodup, h.tree_iff hempty⟩

end MakeInitrd.Put
