import MakeInitrd.Lib.FsResolve
import MakeInitrd.Put.Canonical

/-!
# `enqueue_canonicalized_path` on the components of a path

The loop does not check a directory when it enters it: a component that is no directory is found out
by the next lookup, or by `dir_check` if there is none. This agrees with the resolution of paths
(`canon_eq_some_iff`).
-/

namespace MakeInitrd.Put

open Posix

section

variable {fs : Fs} {follow : Loc → Path → Option (List Loc × Loc)} {dest r : Loc} {links : List Loc}
  {c : Name} {cs p : Path} {n : Nat}

theorem passes_dir (cs : Path) : passes (some .dir) cs = true := by
  unfold passes
  split <;> rfl

theorem canonFrom_skip {look : Loc → Option Body} (hc : c = [] ∨ c = dot) (cs : Path) :
    canonFrom look follow dest (c :: cs) = canonFrom look follow dest cs := by
  rw [canonFrom, if_pos hc]

theorem canonFrom_eq_none (hdest : fs.body? dest ≠ some .dir)
    (hcheck : suffixRequiresDirCheck cs = false) (hcs : cs ≠ []) :
    canonFrom fs.body? follow dest cs = none := by
  induction cs with
  | nil => exact absurd rfl hcs
  | cons c cs ih =>
    unfold suffixRequiresDirCheck at hcheck
    unfold canonFrom
    split at hcheck
    · next hc =>
      rw [Bool.or_eq_false_iff, decide_eq_false_iff_not] at hcheck
      rw [if_pos hc]
      exact ih hcheck.2 hcheck.1
    · next hc =>
      have hnone : fs.body? (dest ++ [c]) = none := by
        by_contra hsome
        exact hdest (fs.body?_of_append (List.cons_ne_nil c []) hsome)
      rw [if_neg hc, if_neg (of_decide_eq_false hcheck), hnone]
      exact if_neg fun hpass => ne_none_of_passes hpass rfl

/-- What `canonFrom` returns is a resolution. -/
theorem resolves_of_canonFrom
    (hfollow : ∀ d q ls, fs.body? d = some .dir → follow d q = some (ls, r) →
      Resolves fs.body? d q ls r ∧ ls.length + 1 ≤ n)
    (hdest : passes (fs.body? dest) p) (h : canonFrom fs.body? follow dest p = some (links, r)) :
    Resolves fs.body? dest p links r ∧ links.length ≤ n := by
  induction p generalizing dest with
  | nil =>
    cases h
    exact ⟨.nil, Nat.zero_le n⟩
  | cons c cs ih =>
    by_cases hdir : fs.body? dest = some .dir
    · unfold canonFrom at h
      split at h
      next hc =>
        obtain ⟨hrest, hn⟩ := ih (hdir ▸ passes_dir cs) h
        exact ⟨.stay hdir hc hrest, hn⟩
      next hstay =>
      split at h
      next hup =>
        have hparent : fs.body? dest.dropLast = some .dir := by
          rcases Fs.body?_prefix_cases (List.dropLast_prefix dest)
            (hdir ▸ Option.some_ne_none _) with heq | hd
          · rw [heq, hdir]
          · exact hd
        obtain ⟨hrest, hn⟩ := ih (hparent ▸ passes_dir cs) h
        exact ⟨hup ▸ .up hdir hrest, hn⟩
      next hup =>
      have hc := special_eq_false_iff.2 ⟨hstay, hup⟩
      split at h
      · next t hlink =>
        obtain ⟨⟨ls, s⟩, hfol, heq⟩ := Option.map_eq_some_iff.1 h
        cases heq
        have hbase : fs.body? (if isAbsolute t then [] else dest) = some .dir := by
          split
          · exact fs.root_dir
          · exact hdir
        obtain ⟨hrest, hn⟩ := hfollow _ _ ls hbase hfol
        exact ⟨.link hdir hc hlink hrest, hn⟩
      · next hlink =>
        split at h
        · next hpass =>
          obtain ⟨b, hb⟩ := Option.ne_none_iff_exists'.1 (ne_none_of_passes hpass)
          obtain ⟨hrest, hn⟩ := ih hpass h
          exact ⟨.entry hdir hc hb (fun t ht => hlink t (ht ▸ hb)) hrest, hn⟩
        · cases h
    · -- what follows asks for no check, so the loop goes on and fails
      have hcheck : suffixRequiresDirCheck (c :: cs) = false := by
        by_contra htrue
        unfold passes at hdest
        rw [if_pos (Bool.not_eq_false _ ▸ htrue)] at hdest
        exact hdir (of_decide_eq_true hdest)
      rw [canonFrom_eq_none hdir hcheck (List.cons_ne_nil c cs)] at h
      cases h

/-- `canonFrom` finds a resolution with few enough symlinks. -/
theorem canonFrom_of_resolves
    (hfollow : ∀ d q ls, fs.body? d = some .dir → Resolves fs.body? d q ls r → ls.length + 1 ≤ n →
      follow d q = some (ls, r))
    (h : Resolves fs.body? dest p links r) (hn : links.length ≤ n) :
    canonFrom fs.body? follow dest p = some (links, r) := by
  induction p generalizing dest with
  | nil =>
    cases h
    rfl
  | cons c cs ih =>
    unfold canonFrom
    cases h with
    | stay hdir hc hrest =>
      rw [if_pos hc]
      exact ih hrest
    | up hdir hrest =>
      rw [if_neg (by decide), if_pos rfl]
      exact ih hrest
    | @link _ _ ls _ _ t hdir hc hlink hrest =>
      obtain ⟨hstay, hup⟩ := special_eq_false_iff.1 hc
      have hbase : fs.body? (if isAbsolute t then [] else dest) = some .dir := by
        split
        · exact fs.root_dir
        · exact hdir
      rw [if_neg hstay, if_neg hup, hlink]
      show (follow _ _).map _ = _
      rw [hfollow _ _ ls hbase hrest hn]
      rfl
    | @entry _ _ _ _ _ b hdir hc hb hlink hrest =>
      obtain ⟨hstay, hup⟩ := special_eq_false_iff.1 hc
      have hpass : passes (fs.body? (dest ++ [c])) cs := by
        unfold passes
        split
        · next hcheck =>
          refine decide_eq_true (hrest.dir_of_ne_nil ?_)
          rintro rfl
          cases hcheck
        · rw [hb]
          rfl
      rw [if_neg hstay, if_neg hup]
      rw [hb] at hpass ⊢
      cases b with
      | link t => exact absurd rfl (hlink t)
      | _ => exact (if_pos hpass).trans (ih hrest)

/-- From a directory the loop finds the object and the symlinks on the way exactly if there are few
enough of them. -/
theorem canon_eq_some_iff (hdest : fs.body? dest = some .dir) :
    canon fs.body? n dest p = some (links, r) ↔
      Resolves fs.body? dest p links r ∧ links.length ≤ n := by
  induction n generalizing dest p links with
  | zero =>
    refine ⟨resolves_of_canonFrom (fun _ _ _ _ hnone => ?_) (hdest ▸ passes_dir p),
      fun ⟨h, hn⟩ => canonFrom_of_resolves (fun _ _ _ _ _ hlt => ?_) h hn⟩
    · cases hnone
    · cases hlt
  | succ n ih =>
    refine ⟨resolves_of_canonFrom (fun d q ls hd h => ?_) (hdest ▸ passes_dir p),
      fun ⟨h, hn⟩ => canonFrom_of_resolves (fun d q ls hd h hlt => ?_) h hn⟩
    · obtain ⟨hres, hle⟩ := (ih hd).1 h
      exact ⟨hres, Nat.succ_le_succ hle⟩
    · exact (ih hd).2 ⟨h, Nat.le_of_succ_le_succ hlt⟩

theorem canon_eq_none_iff (hdest : fs.body? dest = some .dir) :
    canon fs.body? n dest p = none ↔ ∃ e, walk fs.body? (n + 1) dest p = .error e := by
  constructor
  · intro hnone
    cases hwalk : walk fs.body? (n + 1) dest p with
    | error e => exact ⟨e, rfl⟩
    | ok r =>
      obtain ⟨links, hres, hn⟩ := walk_eq_ok_iff.1 hwalk
      rw [(canon_eq_some_iff hdest).2 ⟨hres, hn⟩] at hnone
      cases hnone
  · rintro ⟨e, hwalk⟩
    cases hcanon : canon fs.body? n dest p with
    | none => rfl
    | some res =>
      obtain ⟨hres, hn⟩ := (canon_eq_some_iff hdest).1 hcanon
      rw [hres.walk hn] at hwalk
      cases hwalk

end

end MakeInitrd.Put
