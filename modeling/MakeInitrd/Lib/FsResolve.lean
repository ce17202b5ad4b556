import MakeInitrd.Lib.FsLookup

/-!
# Resolving a path, one component after the other

`Resolves` is the meaning of a path: which object it names from a directory on and which symlinks
are traversed on the way, without a bound on their number. The lookup with a bound finds the object
exactly if there are no more symlinks than the bound allows (`walk_eq_ok_iff`).
-/

namespace Posix

open CMem List

/-! ## Paths as strings -/

def cut (s : Bytes) : Path := s.splitOn 47

/-- The string of names that each stand after a slash. -/
def slashed (p : Path) : Bytes := (p.map (47 :: ·)).flatten

section

variable {s w : Bytes} {p q : Path} {c : UInt8}

@[simp] theorem slashed_nil : slashed [] = [] := rfl

@[simp] theorem slashed_cons (w : Name) (p : Path) : slashed (w :: p) = 47 :: (w ++ slashed p) :=
  rfl

@[simp] theorem slashed_append (p q : Path) : slashed (p ++ q) = slashed p ++ slashed q := by
  simp [slashed]

theorem intercalate_cons (w : Name) (p : Path) : [47].intercalate (w :: p) = w ++ slashed p := by
  induction p generalizing w with
  | nil => simp
  | cons v p ih => rw [intercalate_cons_cons, ih, slashed_cons, append_assoc, singleton_append]

theorem intercalate_append (hp : p ≠ []) (q : Path) :
    [47].intercalate (p ++ q) = [47].intercalate p ++ slashed q := by
  cases p with
  | nil => exact absurd rfl hp
  | cons w p => rw [cons_append, intercalate_cons, intercalate_cons, slashed_append, append_assoc]

@[simp] theorem cut_slash (s : Bytes) : cut (47 :: s) = [] :: cut s := by
  simp [cut, splitOn, splitOnP_cons_eq_if_modifyHead]

theorem cut_ne_nil (s : Bytes) : cut s ≠ [] := splitOnP_ne_nil _ s

theorem cut_cons (h : c ≠ 47) (s : Bytes) : cut (c :: s) = (cut s).modifyHead (c :: ·) := by
  simp [cut, splitOn, splitOnP_cons_eq_if_modifyHead, h]

theorem cut_append (hw : 47 ∉ w) (hs : s = [] ∨ s.head? = some 47) :
    cut (w ++ s) = w :: (cut s).tail := by
  induction w with
  | nil =>
    rcases hs with rfl | hs
    · rfl
    · obtain ⟨s, rfl⟩ := head?_eq_some_iff.1 hs
      rw [nil_append, cut_slash, tail_cons]
  | cons c w ih =>
    rw [mem_cons, not_or] at hw
    rw [cons_append, cut_cons (Ne.symm hw.1), ih hw.2, modifyHead_cons]

theorem intercalate_cut (s : Bytes) : [47].intercalate (cut s) = s :=
  intercalate_splitOn 47

theorem cut_intercalate (hp : p ≠ []) (h : ∀ w ∈ p, 47 ∉ w) : cut ([47].intercalate p) = p :=
  splitOn_intercalate 47 h hp

theorem slashed_cut (hs : s = [] ∨ s.head? = some 47) : slashed (cut s).tail = s := by
  rcases hs with rfl | hs
  · rfl
  · obtain ⟨s, rfl⟩ := head?_eq_some_iff.1 hs
    obtain ⟨w, p, hcut⟩ := exists_cons_of_ne_nil (cut_ne_nil s)
    have htext := intercalate_cut s
    rw [hcut, intercalate_cons] at htext
    rw [cut_slash, tail_cons, hcut, slashed_cons, htext]

theorem not_mem_of_mem_cut (h : w ∈ cut s) : 47 ∉ w := by
  induction s generalizing w with
  | nil =>
    rw [mem_singleton.1 h]
    exact not_mem_nil
  | cons c s ih =>
    by_cases hc : c = 47
    · rw [hc, cut_slash] at h
      rcases mem_cons.1 h with rfl | h
      · exact not_mem_nil
      · exact ih h
    · rw [cut_cons hc] at h
      obtain ⟨v, p, hcut⟩ := exists_cons_of_ne_nil (cut_ne_nil s)
      rw [hcut, modifyHead_cons] at h
      rw [hcut] at ih
      rcases mem_cons.1 h with rfl | h
      · rw [mem_cons, not_or]
        exact ⟨Ne.symm hc, ih mem_cons_self⟩
      · exact ih (mem_cons_of_mem v h)

end

/-! ## The meaning of a path -/

/-- From the directory `dir`, the path leads to an object and traverses symlinks on the way. -/
inductive Resolves (look : Loc → Option Body) : Loc → Path → List Loc → Loc → Prop
  | nil {dir : Loc} : Resolves look dir [] [] dir
  | stay {dir r : Loc} {links : List Loc} {c : Name} {cs : Path} (hdir : look dir = some .dir)
      (hc : c = [] ∨ c = dot) (hrest : Resolves look dir cs links r) :
      Resolves look dir (c :: cs) links r
  | up {dir r : Loc} {links : List Loc} {cs : Path} (hdir : look dir = some .dir)
      (hrest : Resolves look dir.dropLast cs links r) : Resolves look dir (dotDot :: cs) links r
  | link {dir r : Loc} {links : List Loc} {c : Name} {cs t : Path} (hdir : look dir = some .dir)
      (hc : special c = false) (hlink : look (dir ++ [c]) = some (.link t))
      (hrest : Resolves look (if isAbsolute t then [] else dir) (t ++ cs) links r) :
      Resolves look dir (c :: cs) ((dir ++ [c]) :: links) r
  | entry {dir r : Loc} {links : List Loc} {c : Name} {cs : Path} {b : Body}
      (hdir : look dir = some .dir) (hc : special c = false) (hb : look (dir ++ [c]) = some b)
      (hlink : ∀ t, b ≠ .link t) (hrest : Resolves look (dir ++ [c]) cs links r) :
      Resolves look dir (c :: cs) links r

theorem special_eq_false_iff {c : Name} : special c = false ↔ ¬(c = [] ∨ c = dot) ∧ c ≠ dotDot := by
  simp [special]

section

variable {look : Loc → Option Body} {follow : Loc → Path → Except Errno Loc} {dir r : Loc}
  {links : List Loc} {p : Path} {n : Nat}

theorem Resolves.walk (h : Resolves look dir p links r) (hn : links.length ≤ n) :
    walk look (n + 1) dir p = .ok r := by
  induction h generalizing n with
  | nil => rfl
  | stay hdir hc _ ih =>
    change walkFrom look _ _ _ = _
    rw [walkFrom, if_neg (not_not.2 hdir), if_pos hc]
    exact ih hn
  | up hdir _ ih =>
    change walkFrom look _ _ _ = _
    rw [walkFrom, if_neg (not_not.2 hdir), if_neg (by decide), if_pos rfl]
    exact ih hn
  | link hdir hc hlink _ ih =>
    obtain ⟨n, rfl⟩ := Nat.exists_eq_add_of_le' (Nat.lt_of_lt_of_le (Nat.succ_pos _) hn)
    have ⟨hstay, hup⟩ := special_eq_false_iff.1 hc
    change walkFrom look _ _ _ = _
    rw [walkFrom, if_neg (not_not.2 hdir), if_neg hstay, if_neg hup, hlink]
    exact ih (Nat.le_of_succ_le_succ hn)
  | @entry dir r links c cs b hdir hc hb hlink _ ih =>
    have ⟨hstay, hup⟩ := special_eq_false_iff.1 hc
    change walkFrom look _ _ _ = _
    rw [walkFrom, if_neg (not_not.2 hdir), if_neg hstay, if_neg hup, hb]
    cases b with
    | link t => exact absurd rfl (hlink t)
    | _ => exact ih hn

/-- A lookup that succeeds is a resolution. -/
theorem resolves_of_walkFrom (hfollow : ∀ d q, follow d q = .ok r →
      ∃ links, Resolves look d q links r ∧ links.length + 1 ≤ n)
    (h : walkFrom look follow dir p = .ok r) :
    ∃ links, Resolves look dir p links r ∧ links.length ≤ n := by
  induction p generalizing dir with
  | nil =>
    cases h
    exact ⟨[], .nil, Nat.zero_le n⟩
  | cons c cs ih =>
    unfold walkFrom at h
    split at h
    · cases h
    next hdir =>
    have hdir := not_not.1 hdir
    split at h
    next hc =>
      obtain ⟨links, hrest, hn⟩ := ih h
      exact ⟨links, .stay hdir hc hrest, hn⟩
    next hstay =>
    split at h
    next hup =>
      obtain ⟨links, hrest, hn⟩ := ih h
      exact ⟨links, hup ▸ .up hdir hrest, hn⟩
    next hup =>
    have hc := special_eq_false_iff.2 ⟨hstay, hup⟩
    split at h
    · cases h
    · next t hlink =>
      obtain ⟨links, hrest, hn⟩ := hfollow _ _ h
      exact ⟨_ :: links, .link hdir hc hlink hrest, hn⟩
    · next b hlink hb =>
      obtain ⟨links, hrest, hn⟩ := ih h
      exact ⟨links, .entry hdir hc hb (fun t ht => hlink t ht) hrest, hn⟩

theorem walk_eq_ok_iff :
    walk look (n + 1) dir p = .ok r ↔ ∃ links, Resolves look dir p links r ∧ links.length ≤ n := by
  refine ⟨fun h => ?_, fun ⟨links, h, hn⟩ => h.walk hn⟩
  induction n generalizing dir p with
  | zero =>
    refine resolves_of_walkFrom (fun _ _ hnone => ?_) h
    cases hnone
  | succ n ih =>
    refine resolves_of_walkFrom (fun d q hq => ?_) h
    obtain ⟨links, hrest, hn⟩ := ih hq
    exact ⟨links, hrest, Nat.succ_le_succ hn⟩

theorem Resolves.dir_of_ne_nil (h : Resolves look dir p links r) (hp : p ≠ []) :
    look dir = some .dir := by
  cases h with
  | nil => exact absurd rfl hp
  | stay hdir | up hdir | link hdir | entry hdir => exact hdir

end

/-! ## Locations -/

/-- There is an object and it is no symlink. -/
def Fs.Physical (fs : Fs) (l : Loc) : Prop :=
  ∃ b, fs.body? l = some b ∧ ∀ t, b ≠ .link t

namespace Fs

variable {fs : Fs} {cwd dir l r : Loc} {links : List Loc} {c : Name} {p q : Path}
  {follow : Loc → Path → Except Errno Loc}

theorem Physical.of_dir (h : fs.body? l = some .dir) : fs.Physical l :=
  ⟨.dir, h, nofun⟩

theorem physical_root (fs : Fs) : fs.Physical [] :=
  .of_dir fs.root_dir

theorem Physical.ne_none (h : fs.Physical l) : fs.body? l ≠ none := by
  obtain ⟨b, hb, -⟩ := h
  rw [hb]
  exact nofun

theorem Physical.not_link (h : fs.Physical l) (t : Path) : fs.body? l ≠ some (.link t) := by
  obtain ⟨b, hb, hlink⟩ := h
  rw [hb]
  exact fun heq => hlink t (Option.some.inj heq)

theorem body?_prefix_cases (hl : l <+: r) (hr : fs.body? r ≠ none) :
    l = r ∨ fs.body? l = some .dir := by
  obtain ⟨m, rfl⟩ := hl
  by_cases hm : m = []
  · exact .inl (by rw [hm, append_nil])
  · exact .inr (fs.body?_of_append hm hr)

theorem Physical.of_prefix (h : fs.Physical r) (hl : l <+: r) : fs.Physical l := by
  rcases body?_prefix_cases hl h.ne_none with rfl | hdir
  · exact h
  · exact .of_dir hdir

theorem Physical.dropLast (h : fs.Physical l) : fs.Physical l.dropLast :=
  h.of_prefix (List.dropLast_prefix l)

theorem physical_of_resolves (h : Resolves fs.body? dir p links r) (hdir : fs.Physical dir) :
    fs.Physical r := by
  induction h with
  | nil => exact hdir
  | stay _ _ _ ih => exact ih hdir
  | up _ _ ih => exact ih hdir.dropLast
  | link _ _ _ _ ih =>
    refine ih ?_
    split
    · exact fs.physical_root
    · exact hdir
  | entry _ _ hb hlink _ ih => exact ih ⟨_, hb, hlink⟩

/-- What holds of the names of the starting point, of every component that is looked up and of every
component of a symlink holds of the names of the object. -/
theorem names_of_resolves {P : Name → Prop} (h : Resolves fs.body? dir p links r)
    (htargets : ∀ l t, fs.body? l = some (.link t) → ∀ c ∈ t, special c = false → P c)
    (hdir : ∀ c ∈ dir, P c) (hp : ∀ c ∈ p, special c = false → P c) : ∀ c ∈ r, P c := by
  induction h with
  | nil => exact hdir
  | stay _ _ _ ih => exact ih hdir fun c hc => hp c (mem_cons_of_mem _ hc)
  | up _ _ ih =>
    exact ih (fun c hc => hdir c (mem_of_mem_dropLast hc)) fun c hc => hp c (mem_cons_of_mem _ hc)
  | link _ _ hlink _ ih =>
    refine ih ?_ fun c hc => ?_
    · split
      · exact nofun
      · exact hdir
    · rcases mem_append.1 hc with ht | hcs
      · exact htargets _ _ hlink c ht
      · exact hp c (mem_cons_of_mem _ hcs)
  | @entry dir r links c cs b _ hc _ _ _ ih =>
    refine ih (fun a ha => ?_) fun a ha => hp a (mem_cons_of_mem _ ha)
    rcases mem_append.1 ha with ha | ha
    · exact hdir a ha
    · rw [mem_singleton.1 ha]
      exact hp c mem_cons_self hc

theorem walkFrom_location (hl : fs.Physical (dir ++ l))
    (hnames : ∀ c ∈ l, special c = false) (q : Path) :
    walkFrom fs.body? follow dir (l ++ q) = walkFrom fs.body? follow (dir ++ l) q := by
  induction l generalizing dir with
  | nil => rw [nil_append, append_nil]
  | cons c l ih =>
    have hdir : fs.body? dir = some .dir :=
      fs.body?_of_append (cons_ne_nil c l) hl.ne_none
    have ⟨hstay, hup⟩ := special_eq_false_iff.1 (hnames c mem_cons_self)
    rw [append_cons] at hl ⊢
    obtain ⟨b, hb, hlink⟩ := hl.of_prefix (prefix_append (dir ++ [c]) l)
    rw [← ih hl fun a ha => hnames a (mem_cons_of_mem c ha), cons_append, walkFrom,
      if_neg (not_not.2 hdir), if_neg hstay, if_neg hup, hb]
    cases b with
    | link t => exact absurd rfl (hlink t)
    | _ => rfl

theorem walkFrom_slash (p : Path) :
    walkFrom fs.body? follow [] ([] :: p) = walkFrom fs.body? follow [] p := by
  have hroot : fs.body? [] = some .dir := fs.root_dir
  rw [walkFrom, if_neg (not_not.2 hroot), if_pos (.inl rfl)]

theorem resolve_location (cwd : Loc) (hl : fs.Physical l) (hnames : ∀ c ∈ l, special c = false)
    (hq : l ++ q ≠ []) :
    fs.resolve cwd ([] :: (l ++ q)) = walkFrom fs.body? (walk fs.body? maxLinks) l q := by
  obtain ⟨a, as, has⟩ := exists_cons_of_ne_nil hq
  have habs : isAbsolute ([] :: (l ++ q)) = true := by rw [has]; rfl
  rw [Fs.resolve, if_neg (by rw [has]; exact nofun), if_pos habs]
  change walkFrom fs.body? (walk fs.body? maxLinks) [] ([] :: (l ++ q)) = _
  rw [walkFrom_slash, walkFrom_location hl hnames, nil_append]

theorem resolve_path (hl : fs.Physical l) (hnames : ∀ c ∈ l, special c = false) :
    fs.resolve cwd (Loc.path l) = .ok l := by
  cases l with
  | nil =>
    have h := resolve_location (q := [[]]) cwd hl hnames (cons_ne_nil _ _)
    rw [walkFrom_slash, walkFrom] at h
    exact h
  | cons n l =>
    have h := resolve_location (q := []) cwd hl hnames (cons_ne_nil _ _)
    rw [append_nil] at h
    exact h

theorem slot_path (cwd : Loc) (hdir : fs.Physical dir) (hnames : ∀ c ∈ dir, special c = false)
    (hc : special c = false) :
    fs.slot cwd (Loc.path (dir ++ [c])) =
      if fs.body? dir = some .dir then .ok (dir ++ [c]) else .error .notdir := by
  have hpath : Loc.path (dir ++ [c]) = ([] :: dir) ++ [c] := by cases dir <;> rfl
  have habs : isAbsolute (([] :: dir) ++ [c]) = true := by cases dir <;> rfl
  have hwalk : walk fs.body? (maxLinks + 1) [] ([] :: dir) = .ok dir := by
    change walkFrom fs.body? (walk fs.body? maxLinks) [] ([] :: dir) = _
    have h : walkFrom fs.body? (walk fs.body? maxLinks) [] (dir ++ []) = _ :=
      walkFrom_location hdir hnames []
    rw [append_nil, nil_append, walkFrom] at h
    rw [walkFrom_slash]
    exact h
  rw [Fs.slot, hpath, getLast?_concat, dropLast_concat, habs, if_pos rfl, hwalk]
  simp only [hc, Bool.false_eq_true, if_false]

end Fs

end Posix
