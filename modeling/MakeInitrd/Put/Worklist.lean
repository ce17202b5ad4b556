import MakeInitrd.Put.Queue

/-!
# What a round of the main loop does

Every function that enqueues only adds items: `Grows` says which paths may be added, and the
functions compose. `Work.Round` lists the rounds of the main loop that go on: a new start at the
head, an item that is dropped, and an item that is taken into the tree.
-/

namespace MakeInitrd.Put

open Posix Loop List

variable {env : Env} {w w' w'' : Work} {P Q : Path → Prop} {p : Path} {change : File → File}

def Work.paths (w : Work) : List Path :=
  w.queue.map File.src

theorem Work.isPathQueued_iff : w.isPathQueued p ↔ p ∈ w.paths := by
  simp only [isPathQueued, any_eq_true, decide_eq_true_eq, paths, mem_map]

theorem Work.inTree_iff : w.inTree p ↔ p ∈ w.tree.map File.src := by
  simp only [inTree, any_eq_true, decide_eq_true_eq, mem_map]

theorem Work.isPathAdded_iff : w.isPathAdded p ↔ w.inTree p ∨ p ∈ w.paths := by
  rw [isPathAdded, Bool.or_eq_true, isPathQueued_iff]

/-- The paths that can be enqueued when the tree is `tree`. -/
def Env.Open (env : Env) (tree : List File) (y : Path) : Prop :=
  env.excluded y = false ∧ y ∉ tree.map File.src

/-- From `w` to `w'` items were added for paths of `P`, and items in the queue may have changed. -/
structure Grows (env : Env) (P : Path → Prop) (w w' : Work) : Prop where
  tree : w'.tree = w.tree
  nr : w'.treeFilesNr = w.treeFilesNr
  rest : w'.rest.map File.src = w.rest.map File.src
  mem (y : Path) : y ∈ w'.paths ↔ y ∈ w.paths ∨ P y ∧ env.Open w.tree y
  nodup : w.paths.Nodup → w'.paths.Nodup

theorem Grows.refl (w : Work) : Grows env (fun _ => False) w w :=
  ⟨rfl, rfl, rfl, fun _ => by simp, id⟩

theorem Grows.trans (h : Grows env P w w') (h' : Grows env Q w' w'') :
    Grows env (fun y => P y ∨ Q y) w w'' where
  tree := h'.tree.trans h.tree
  nr := h'.nr.trans h.nr
  rest := h'.rest.trans h.rest
  mem y := by rw [h'.mem, h.mem, h.tree, or_assoc, or_and_right]
  nodup hnd := h'.nodup (h.nodup hnd)

theorem Grows.congr (h : Grows env P w w')
    (hPQ : ∀ y, env.Open w.tree y → y ∉ w.paths → (P y ↔ Q y)) :
    Grows env Q w w' where
  tree := h.tree
  nr := h.nr
  rest := h.rest
  mem y := by
    rw [h.mem]
    by_cases hy : y ∈ w.paths
    · simp only [hy, true_or]
    · simp only [hy, false_or]
      exact and_congr_left fun ho => hPQ y ho hy
  nodup := h.nodup

/-- The functions that use an enqueued item leave its path as it is. -/
def Renames (change : File → File) : Prop :=
  ∀ f, (change f).src = f.src

theorem map_src_update (hc : Renames change) (l : List File) :
    (l.map fun f => if f.src = p then change f else f).map File.src = l.map File.src := by
  rw [map_map]
  refine map_congr_left fun f _ => ?_
  simp only [Function.comp_apply]
  split
  · exact hc f
  · rfl

/-- `enqueue_item` adds the path, unless it is excluded or there. -/
theorem enqueueItem_grows (hc : Renames change) (w : Work) :
    Grows env (fun y => y = p) w (w.enqueueItem env p change) := by
  unfold Work.enqueueItem
  split
  · next hex =>
    refine (Grows.refl w).congr fun y ho _ => ⟨False.elim, ?_⟩
    rintro rfl
    cases hex.symm.trans ho.1
  split
  · next _ hq =>
    have hpaths : (w.update p change).paths = w.paths := by
      simp only [Work.paths, Work.queue, Work.update, map_append, map_src_update hc]
    refine ⟨rfl, rfl, map_src_update hc _, fun y => ?_, fun hnd => hpaths ▸ hnd⟩
    rw [hpaths, iff_self_or]
    rintro ⟨rfl, -⟩
    exact Work.isPathQueued_iff.1 hq
  split
  · next _ _ ht =>
    refine (Grows.refl w).congr fun y ho _ => ⟨False.elim, ?_⟩
    rintro rfl
    exact ho.2 (Work.inTree_iff.1 ht)
  · next hex hq ht =>
    have hopen : env.Open w.tree p :=
      ⟨Bool.eq_false_iff.2 hex, fun hmem => ht (Work.inTree_iff.2 hmem)⟩
    have hpaths :
        ∀ f : File, f.src = p → Work.paths { w with ahead := f :: w.ahead } = p :: w.paths := by
      rintro f rfl
      rfl
    rw [Work.isPathQueued_iff] at hq
    refine ⟨rfl, rfl, rfl, fun y => ?_, fun hnd => ?_⟩
    · rw [hpaths _ (hc _), mem_cons, or_comm]
      refine or_congr_right ⟨?_, fun h => h.1⟩
      rintro rfl
      exact ⟨rfl, hopen⟩
    · rw [hpaths _ (hc _)]
      exact nodup_cons.2 ⟨hq, hnd⟩

theorem renames_id : Renames id := fun _ => rfl

theorem renames_setRecursive (b : Bool) : Renames (File.setRecursive b) := fun _ => rfl

theorem renames_fillStat (st : Stat) : Renames (File.fillStat st) := fun _ => rfl

theorem enqueueItems_grows (w : Work) (ps : List Path) :
    Grows env (fun y => y ∈ ps) w (w.enqueueItems env ps) := by
  induction ps generalizing w with
  | nil => exact (Grows.refl w).congr fun y _ _ => by simp
  | cons p ps ih =>
    exact ((enqueueItem_grows renames_id w).trans (ih _)).congr fun y _ _ => by
      rw [mem_cons]

theorem enqueueParentDirectory_grows (w : Work) :
    Grows env (fun y => env.removePrefix ≠ some p ∧ parent? p = some y) w
      (w.enqueueParentDirectory env p) := by
  unfold Work.enqueueParentDirectory
  split
  · next h => exact (Grows.refl w).congr fun y _ _ => by simp [h]
  · next h =>
    split
    · next hp => exact (Grows.refl w).congr fun y _ _ => by simp [hp]
    · next q hp =>
      exact (enqueueItem_grows renames_id w).congr fun y _ _ => by simp [h, hp, eq_comm]

def Env.Resolves (env : Env) (name y : Path) : Prop :=
  ∃ links rname, env.canonicalize name = some (links, rname) ∧ (y ∈ links ∨ y = rname)

theorem enqueueCanonicalizedPath_grows {name : Path} {b : Bool}
    (h : w.enqueueCanonicalizedPath env name b = some w') :
    Grows env (env.Resolves name) w w' := by
  unfold Work.enqueueCanonicalizedPath at h
  cases hc : env.canonicalize name with
  | none =>
    rw [hc] at h
    cases h
  | some r =>
    obtain ⟨links, rname⟩ := r
    rw [hc] at h
    cases h
    refine ((enqueueItems_grows w links).trans (enqueueItem_grows (renames_setRecursive b) _)).congr
      fun y _ _ => ?_
    simp only [Env.Resolves, hc, Option.some.injEq, Prod.mk.injEq]
    grind

theorem enqueueEntry_grows (w : Work) (e : Path × Stat) :
    Grows env (fun y => y = e.1) w (w.enqueueEntry env e) := by
  unfold Work.enqueueEntry
  split
  · next hadded =>
    rw [Work.isPathAdded_iff, Work.inTree_iff] at hadded
    refine (Grows.refl w).congr fun y ho hy => ⟨False.elim, ?_⟩
    rintro rfl
    exact hadded.elim ho.2 hy
  · exact enqueueItem_grows (renames_fillStat e.2) w

theorem enqueueDirectory_grows (w : Work) :
    Grows env (fun y => y ∈ (env.walk p).map Prod.fst) w (w.enqueueDirectory env p) := by
  unfold Work.enqueueDirectory
  generalize env.walk p = es
  induction es generalizing w with
  | nil => exact (Grows.refl w).congr fun y _ _ => by simp
  | cons e es ih =>
    exact ((enqueueEntry_grows w e).trans (ih _)).congr fun y _ _ => by
      rw [map_cons, mem_cons]

/-- What a file in the tree asks for. -/
def Env.Requests (env : Env) (f : File) (st : Stat) (y : Path) : Prop :=
  (env.removePrefix ≠ some f.src ∧ parent? f.src = some y) ∨
  (st.type = .dir ∧ f.recursive ∧ y ∈ (env.walk f.src).map Prod.fst) ∨
  (st.type = .lnk ∧ env.Resolves f.src y) ∨
  (st.type = .reg ∧ ∃ ds, env.deps f.src = some ds ∧ y ∈ ds)

variable {f : File}

/-- `enqueue_path` adds what the file requests. -/
theorem enqueuePath_grows {f' : File} (hadded : w.isPathAdded f.src)
    (h : w.enqueuePath env f = some (f', w')) :
    f'.src = f.src ∧ ∃ st, env.statOf f = some st ∧ Grows env (env.Requests f st) w w' := by
  simp only [Work.enqueuePath, hadded, Bool.not_true, Bool.false_eq_true, if_false,
    Option.bind_eq_bind, Option.bind_eq_some_iff] at h
  obtain ⟨st, hst, h⟩ := h
  have hparent : Grows env _ w (w.enqueueParentDirectory env f.src) :=
    enqueueParentDirectory_grows w
  cases htype : st.type with
  | dir =>
    simp only [htype, Option.some.injEq, Prod.mk.injEq] at h
    obtain ⟨rfl, rfl⟩ := h
    refine ⟨rfl, st, hst, ?_⟩
    split
    · next hrec =>
      refine (hparent.trans (enqueueDirectory_grows _)).congr fun y _ _ => ?_
      have : f.recursive = true := hrec
      simp [Env.Requests, htype, this, File.fillStat]
    · next hrec =>
      refine hparent.congr fun y _ _ => ?_
      have : f.recursive = false := Bool.eq_false_iff.2 hrec
      simp [Env.Requests, htype, this]
  | lnk =>
    simp only [htype, Option.bind_eq_some_iff, Option.some.injEq, Prod.mk.injEq] at h
    obtain ⟨w1, hw1, rfl, rfl⟩ := h
    refine ⟨rfl, st, hst, ?_⟩
    refine (hparent.trans (enqueueCanonicalizedPath_grows hw1)).congr fun y _ _ => ?_
    simp [Env.Requests, htype, File.fillStat]
  | reg =>
    simp only [htype, Option.bind_eq_some_iff, Option.some.injEq, Prod.mk.injEq] at h
    obtain ⟨ds, hds, rfl, rfl⟩ := h
    refine ⟨rfl, st, hst, ?_⟩
    refine (hparent.trans (enqueueItems_grows _ ds)).congr fun y _ _ => ?_
    have : env.deps f.src = some ds := hds
    simp [Env.Requests, htype, this]
  | blk | chr | fifo | sock =>
    simp only [htype, Option.some.injEq, Prod.mk.injEq] at h
    obtain ⟨rfl, rfl⟩ := h
    refine ⟨rfl, st, hst, hparent.congr fun y _ _ => ?_⟩
    simp [Env.Requests, htype]

/-! ## Properties of the items -/

section

variable {R : File → Prop}

def Work.All (w : Work) (R : File → Prop) : Prop :=
  ∀ f ∈ w.queue, R f

def File.fresh (path : Path) : File :=
  ⟨path, [], none, none, false⟩

theorem Work.All.enqueueItem {R' : File → Prop} (h : w.All R)
    (hother : ∀ f ∈ w.queue, f.src ≠ p ∨ env.excluded p → R f → R' f)
    (hchange : ∀ f ∈ w.queue, f.src = p → R' (change f))
    (hfresh : p ∉ w.paths → env.excluded p = false → R' (change (.fresh p))) :
    (w.enqueueItem env p change).All R' := by
  unfold Work.enqueueItem
  split
  · next hex => exact fun f hf => hother f hf (.inr hex) (h f hf)
  split
  · intro f hf
    simp only [Work.update, Work.queue, ← map_append, mem_map] at hf
    obtain ⟨g, hg, rfl⟩ := hf
    split
    · next hsrc => exact hchange g hg hsrc
    · next hsrc => exact hother g hg (.inl hsrc) (h g hg)
  next hex hq =>
  rw [Work.isPathQueued_iff] at hq
  have hold : w.All R' := by
    intro f hf
    refine hother f hf (.inl ?_) (h f hf)
    rintro rfl
    exact hq (mem_map_of_mem hf)
  split
  · exact hold
  · intro f hf
    rcases mem_cons.1 hf with rfl | hf
    · exact hfresh hq (Bool.eq_false_iff.2 hex)
    · exact hold f hf

theorem Work.All.enqueueItem_id (h : w.All R)
    (hfresh : p ∉ w.paths → env.excluded p = false → R (.fresh p)) :
    (w.enqueueItem env p id).All R :=
  h.enqueueItem (fun _ _ _ hf => hf) (fun f hf _ => h f hf) hfresh

theorem Work.All.enqueueItems (h : w.All R) (ps : List Path)
    (hfresh : ∀ p ∉ w.paths, env.excluded p = false → R (.fresh p)) :
    (w.enqueueItems env ps).All R := by
  induction ps generalizing w with
  | nil => exact h
  | cons p ps ih =>
    refine ih (h.enqueueItem_id (hfresh p)) fun y hy => hfresh y fun hmem => hy ?_
    exact ((enqueueItem_grows renames_id w).mem y).2 (.inl hmem)

theorem Work.All.enqueueParentDirectory (h : w.All R)
    (hfresh : ∀ p ∉ w.paths, env.excluded p = false → R (.fresh p)) :
    (w.enqueueParentDirectory env p).All R := by
  unfold Work.enqueueParentDirectory
  split
  · exact h
  split
  · exact h
  · exact h.enqueueItem_id (hfresh _)

theorem Work.All.enqueueCanonicalizedPath {R' : File → Prop} {name : Path} {b : Bool} (h : w.All R)
    (hfresh : ∀ p ∉ w.paths, env.excluded p = false → R (.fresh p))
    (hset : ∀ links rname, env.canonicalize name = some (links, rname) →
      (∀ f : File, f.src ≠ rname ∨ env.excluded rname → R f → R' f) ∧
      (∀ f : File, f.src = rname → R f → R' (f.setRecursive b)) ∧
      (rname ∉ w.paths → env.excluded rname = false → R' ((File.fresh rname).setRecursive b)))
    (hw : w.enqueueCanonicalizedPath env name b = some w') : w'.All R' := by
  unfold Work.enqueueCanonicalizedPath at hw
  cases hc : env.canonicalize name with
  | none =>
    rw [hc] at hw
    cases hw
  | some r =>
    obtain ⟨links, rname⟩ := r
    rw [hc] at hw
    cases hw
    have hlinks := h.enqueueItems links hfresh
    obtain ⟨hother, hold, hnew⟩ := hset links rname hc
    refine hlinks.enqueueItem (fun f _ => hother f) (fun f hf hsrc => hold f hsrc (hlinks f hf))
      fun hnot => hnew ?_
    exact fun hmem => hnot (((enqueueItems_grows w links).mem rname).2 (.inl hmem))

theorem Work.All.enqueueDirectory (h : w.All R)
    (hfresh : ∀ e ∈ env.walk p, e.1 ∉ w.paths → R ((File.fresh e.1).fillStat e.2)) :
    (w.enqueueDirectory env p).All R := by
  unfold Work.enqueueDirectory
  generalize env.walk p = es at hfresh
  induction es generalizing w with
  | nil => exact h
  | cons e es ih =>
    have hentry : (w.enqueueEntry env e).All R := by
      unfold Work.enqueueEntry
      split
      · exact h
      · next hadded =>
        rw [Work.isPathAdded_iff, not_or] at hadded
        refine h.enqueueItem (fun _ _ _ hf => hf) (fun f hf hsrc => ?_) fun hnot _ =>
          hfresh e (.head _) hnot
        exact absurd (hsrc ▸ mem_map_of_mem hf) hadded.2
    refine ih hentry fun e' he' hnot => hfresh e' (.tail _ he') fun hmem => hnot ?_
    exact ((enqueueEntry_grows w e).mem e'.1).2 (.inl hmem)

/-- What `enqueue_path` does to the items: new ones are fresh or come from a walk, and the one a
symlink resolves to is no longer recursive. -/
theorem Work.All.enqueuePath {f' : File} (h : w.All R)
    (hfresh : ∀ p ∉ w.paths, env.excluded p = false → R (.fresh p))
    (hwalk : f.recursive → ∀ st, env.statOf f = some st → st.type = .dir →
      ∀ e ∈ env.walk f.src, e.1 ∉ w.paths → R ((File.fresh e.1).fillStat e.2))
    (hlink : ∀ st, env.statOf f = some st → st.type = .lnk → ∀ links rname,
      env.canonicalize f.src = some (links, rname) →
        (∀ g : File, R g → g.src = rname → R (g.setRecursive false)) ∧
          (rname ∉ w.paths → R ((File.fresh rname).setRecursive false)))
    (hw : w.enqueuePath env f = some (f', w')) : w'.All R := by
  unfold Work.enqueuePath at hw
  split at hw
  · cases hw
    exact h
  simp only [Option.bind_eq_bind, Option.bind_eq_some_iff] at hw
  obtain ⟨st, hst, hw⟩ := hw
  have hparent : (w.enqueueParentDirectory env f.src).All R := h.enqueueParentDirectory hfresh
  have hmono : ∀ y ∉ (w.enqueueParentDirectory env f.src).paths, y ∉ w.paths :=
    fun y hy hmem => hy (((enqueueParentDirectory_grows w).mem y).2 (.inl hmem))
  cases htype : st.type with
  | dir =>
    simp only [htype, Option.some.injEq, Prod.mk.injEq] at hw
    obtain ⟨-, rfl⟩ := hw
    split
    · next hrec =>
      exact hparent.enqueueDirectory fun e he hnot => hwalk hrec st hst htype e he (hmono _ hnot)
    · exact hparent
  | lnk =>
    simp only [htype, Option.bind_eq_some_iff, Option.some.injEq, Prod.mk.injEq] at hw
    obtain ⟨w₁, hw₁, -, rfl⟩ := hw
    refine hparent.enqueueCanonicalizedPath (fun y hy => hfresh y (hmono y hy)) ?_ hw₁
    intro links rname hc
    obtain ⟨hold, hnew⟩ := hlink st hst htype links rname hc
    exact ⟨fun _ _ hf => hf, fun f hsrc hf => hold f hf hsrc, fun hnot _ => hnew (hmono _ hnot)⟩
  | reg =>
    simp only [htype, Option.bind_eq_some_iff, Option.some.injEq, Prod.mk.injEq] at hw
    obtain ⟨ds, -, -, rfl⟩ := hw
    exact hparent.enqueueItems ds fun y hy => hfresh y (hmono y hy)
  | blk | chr | fifo | sock =>
    simp only [htype, Option.some.injEq, Prod.mk.injEq] at hw
    obtain ⟨-, rfl⟩ := hw
    exact hparent

end

/-! ## Rounds -/

/-- The path is in the destination already, as something else than a directory. -/
def Env.Present (env : Env) (p : Path) : Prop :=
  env.force = false ∧ env.dest (stripPrefix env p) = .nonDirectory

/-- The file at `queue`, with its `dst`. -/
def Env.withDst (env : Env) (q : File) : File :=
  { q with dst := stripPrefix env q.src }

/-- The state when the file at `queue` has become `f` in the tree and `w₁` is what it enqueued. -/
def Work.take (w : Work) (f : File) (w₁ : Work) : Work :=
  { w₁ with
    rest := w₁.rest.tail
    tree := f :: w.tree
    treeFilesNr := w.treeFilesNr + 1 }

/-- The rounds of the main loop that go on. -/
inductive Work.Round (env : Env) (w : Work) : Work → Prop
  | restart : w.rest = [] → w.ahead ≠ [] → Round env w { w with ahead := [], rest := w.ahead }
  | drop {q : File} {next : List File} : w.rest = q :: next →
      (env.Present q.src ∨ w.inTree q.src) → Round env w { w with rest := next }
  | take {q f : File} {next : List File} {w₁ : Work} : w.rest = q :: next → ¬env.Present q.src →
      ¬w.inTree q.src →
      Work.enqueuePath { w with tree := env.withDst q :: w.tree } env (env.withDst q) =
        some (f, w₁) →
      Round env w (w.take f w₁)

theorem Work.All.take {R : File → Prop} {w₁ : Work} (h : w₁.All R) : (w.take f w₁).All R := by
  intro g hg
  refine h g ?_
  rcases mem_append.1 hg with hg | hg
  · exact mem_append_left _ hg
  · exact mem_append_right _ (mem_of_mem_tail hg)

/-- A round of the main loop that is not its last -/
theorem mainRound_again (h : mainRound env w = .again w') : w.Round env w' := by
  unfold mainRound at h
  split at h
  · next hrest =>
    split at h
    · cases h
    · next hne =>
      cases h
      exact .restart hrest hne
  · next q next hrest =>
    dsimp only at h
    split at h
    · cases h
    · next hfound =>
      cases h
      refine .drop hrest (.inl ?_)
      split at hfound
      · cases hfound
      · next hforce => exact ⟨Bool.eq_false_iff.2 hforce, hfound⟩
    · next hfound =>
      split at h
      · next htree =>
        cases h
        exact .drop hrest (.inr htree)
      · next htree =>
        split at h
        · cases h
        · next f w₁ hpath =>
          cases h
          refine .take hrest ?_ htree hpath
          rintro ⟨hforce, hdest⟩
          rw [hforce] at hfound
          exact hfound hdest

/-- How the main loop ends -/
theorem mainRound_done {r : Outcome} (h : mainRound env w = .done r) :
    r = .exit ∨ r = .finished w.tree w.treeFilesNr ∧ w.paths = [] := by
  unfold mainRound at h
  split at h
  · next hrest =>
    split at h
    · next hahead =>
      cases h
      refine .inr ⟨rfl, ?_⟩
      simp only [Work.paths, Work.queue, hrest, hahead, append_nil, map_nil]
    · cases h
  · dsimp only at h
    split at h
    · cases h
      exact .inl rfl
    · cases h
    · split at h
      · cases h
      · split at h
        · cases h
          exact .inl rfl
        · cases h

/-- The file `q` has been taken into the tree, and what it asks for into the queue. -/
structure Taken (env : Env) (w w' : Work) (q : File) (st : Stat) : Prop where
  tree : w'.tree.map File.src = q.src :: w.tree.map File.src
  mem (y : Path) : y ∈ w'.paths ↔ y ≠ q.src ∧
    (y ∈ w.paths ∨ env.Requests q st y ∧ env.Open w.tree y)
  nodup : w'.paths.Nodup

variable {q : File} {next : List File}

/-- What taking a file up does to the tree and the queue -/
theorem taken {w₁ : Work} (hrest : w.rest = q :: next) (hnd : w.paths.Nodup)
    (hpath : Work.enqueuePath { w with tree := env.withDst q :: w.tree } env (env.withDst q) =
      some (f, w₁)) :
    ∃ st, env.statOf q = some st ∧ Taken env w (w.take f w₁) q st := by
  have hadded :
      Work.isPathAdded { w with tree := env.withDst q :: w.tree } (env.withDst q).src := by
    rw [Work.isPathAdded_iff, Work.inTree_iff]
    exact .inl mem_cons_self
  obtain ⟨hsrc, st, hst, hgrows⟩ := enqueuePath_grows hadded hpath
  -- the item is the first of the rest of the pass, and is taken from there
  have hnext : w₁.rest.map File.src = q.src :: next.map File.src := by
    rw [hgrows.rest, hrest]
    rfl
  have hperm : w₁.paths.Perm (q.src :: (w.take f w₁).paths) := by
    simp only [Work.take, Work.paths, Work.queue, map_append, map_tail, hnext, tail_cons]
    exact perm_middle
  have hnd₁ := hperm.nodup_iff.1 (hgrows.nodup hnd)
  refine ⟨st, hst, ⟨congrArg (· :: _) hsrc, fun y => ?_, (nodup_cons.1 hnd₁).2⟩⟩
  have hmem := (hperm.mem_iff (a := y)).symm.trans (hgrows.mem y)
  rw [mem_cons] at hmem
  by_cases hy : y = q.src
  · subst hy
    simp only [ne_eq, not_true_eq_false, false_and, iff_false]
    exact (nodup_cons.1 hnd₁).1
  · have hopen : env.Open (env.withDst q :: w.tree) y ↔ env.Open w.tree y := by
      simp only [Env.Open, map_cons, mem_cons, not_or]
      exact and_congr_right fun _ => and_iff_right hy
    rw [or_iff_right hy] at hmem
    rw [hmem, ← hopen]
    exact (and_iff_right hy).symm

theorem mem_rest_queue (hrest : w.rest = q :: next) : q ∈ w.queue := by
  rw [Work.queue, hrest]
  exact mem_append_right _ mem_cons_self

theorem paths_perm_drop (hrest : w.rest = q :: next) :
    w.paths.Perm (q.src :: Work.paths { w with rest := next }) := by
  simp only [Work.paths, Work.queue, hrest, map_append, map_cons]
  exact perm_middle

theorem queue_restart (hrest : w.rest = []) :
    Work.queue { w with ahead := [], rest := w.ahead } = w.queue := by
  simp only [Work.queue, hrest, nil_append, append_nil]

theorem Work.All.drop {R : File → Prop} (h : w.All R)
    (hrest : w.rest = q :: next) : Work.All { w with rest := next } R := by
  intro f hf
  refine h f ?_
  simp only [Work.queue, hrest] at hf ⊢
  exact mem_append.2 ((mem_append.1 hf).imp_right (mem_cons_of_mem _))

/-- The queue and the tree hold different paths, each once, and none is excluded. -/
structure Consistent (env : Env) (w : Work) : Prop where
  nr : w.treeFilesNr = w.tree.length
  tree_nodup : (w.tree.map File.src).Nodup
  nodup : w.paths.Nodup
  apart : ∀ y ∈ w.paths, y ∉ w.tree.map File.src
  not_excluded : ∀ y ∈ w.paths, env.excluded y = false

/-- Every round of the main loop keeps the queue and the tree apart. -/
theorem Consistent.round (h : Consistent env w) (hround : w.Round env w') : Consistent env w' := by
  cases hround with
  | restart hrest _ =>
    have hpaths : Work.paths { w with ahead := [], rest := w.ahead } = w.paths :=
      congrArg (map File.src) (queue_restart hrest)
    exact ⟨h.nr, h.tree_nodup, hpaths ▸ h.nodup, hpaths ▸ h.apart, hpaths ▸ h.not_excluded⟩
  | drop hrest _ =>
    have hperm := paths_perm_drop hrest
    exact ⟨h.nr, h.tree_nodup, (nodup_cons.1 (hperm.nodup_iff.1 h.nodup)).2,
      fun y hy => h.apart y (hperm.mem_iff.2 (mem_cons_of_mem _ hy)),
      fun y hy => h.not_excluded y (hperm.mem_iff.2 (mem_cons_of_mem _ hy))⟩
  | @take q f next w₁ hrest _ _ hpath =>
    have hqp : q.src ∈ w.paths := mem_map_of_mem (mem_rest_queue hrest)
    obtain ⟨st, -, htaken⟩ := taken hrest h.nodup hpath
    refine ⟨congrArg (· + 1) h.nr, ?_, htaken.nodup, fun y hy => ?_, fun y hy => ?_⟩
    · rw [htaken.tree]
      exact nodup_cons.2 ⟨h.apart _ hqp, h.tree_nodup⟩
    · rw [htaken.tree, mem_cons, not_or]
      obtain ⟨hne, hy | ⟨-, ho⟩⟩ := (htaken.mem y).1 hy
      · exact ⟨hne, h.apart y hy⟩
      · exact ⟨hne, ho.2⟩
    · obtain ⟨-, hy | ⟨-, ho⟩⟩ := (htaken.mem y).1 hy
      · exact h.not_excluded y hy
      · exact ho.1

/-- What was in the tree or the queue stays there, unless it is dropped because it is in the
destination already. -/
theorem Consistent.keeps (h : Consistent env w) (hround : w.Round env w') {y : Path}
    (hpresent : ¬env.Present y) (hy : y ∈ w.tree.map File.src ∨ y ∈ w.paths) :
    y ∈ w'.tree.map File.src ∨ y ∈ w'.paths := by
  cases hround with
  | restart hrest _ =>
    have hpaths : Work.paths { w with ahead := [], rest := w.ahead } = w.paths :=
      congrArg (map File.src) (queue_restart hrest)
    exact hpaths ▸ hy
  | @drop q next hrest hwhy =>
    refine hy.imp_right fun hy => ?_
    have hq : q.src ∈ w.paths := mem_map_of_mem (mem_rest_queue hrest)
    refine (mem_cons.1 ((paths_perm_drop hrest).mem_iff.1 hy)).resolve_left ?_
    rintro rfl
    exact hwhy.elim hpresent fun htree => h.apart _ hq (Work.inTree_iff.1 htree)
  | @take q f next w₁ hrest _ _ hpath =>
    obtain ⟨st, -, htaken⟩ := taken hrest h.nodup hpath
    rw [htaken.tree, mem_cons, htaken.mem]
    rcases hy with hy | hy
    · exact .inl (.inr hy)
    · by_cases heq : y = q.src
      · exact .inl (.inl heq)
      · exact .inr ⟨heq, .inl hy⟩

theorem Taken.requested {st : Stat} (h : Taken env w w' q st) {y : Path}
    (hr : env.Requests q st y) (hex : env.excluded y = false) :
    y ∈ w'.tree.map File.src ∨ y ∈ w'.paths := by
  rw [h.tree, mem_cons, h.mem]
  by_cases heq : y = q.src
  · exact .inl (.inl heq)
  · by_cases htree : y ∈ w.tree.map File.src
    · exact .inl (.inr htree)
    · exact .inr ⟨heq, .inr ⟨hr, hex, htree⟩⟩

end MakeInitrd.Put
