import MakeInitrd.Lib.Fs

/-!
# Lookups in a growing file system

A lookup reads the directories and the targets of symlinks on its way and nothing else. So what it
finds stays where it is when objects are added (`Fs.Below`).
-/

namespace Posix

open List

/-! ## Objects -/

/-- Equal but for the content of a regular file, which no lookup reads. -/
def Body.Alike : Body → Body → Prop
  | .reg _, .reg _ => True
  | b, b' => b = b'

namespace Body

variable {b b' b'' : Body}

theorem Alike.refl (b : Body) : b.Alike b := by
  cases b <;> trivial

theorem Alike.eq_or (h : b.Alike b') : b = b' ∨ ∃ c c', b = .reg c ∧ b' = .reg c' := by
  cases b <;> cases b' <;> first | exact .inl h | exact .inr ⟨_, _, rfl, rfl⟩

theorem Alike.symm (h : b.Alike b') : b'.Alike b := by
  obtain rfl | ⟨c, c', rfl, rfl⟩ := h.eq_or
  · exact h
  · trivial

theorem Alike.trans (h : b.Alike b') (h' : b'.Alike b'') : b.Alike b'' := by
  obtain rfl | ⟨c, c', rfl, rfl⟩ := h.eq_or
  · exact h'
  · obtain rfl | ⟨c₁, c₂, h₁, rfl⟩ := h'.eq_or
    · trivial
    · trivial

theorem Alike.eq_of_not_reg (h : b.Alike b') (hb : b.type ≠ .reg) : b' = b := by
  obtain rfl | ⟨c, c', rfl, rfl⟩ := h.eq_or
  · rfl
  · exact absurd rfl hb

end Body

/-- The `stat` of an inode. -/
def Fs.statOf (fs : Fs) (i : Nat) : Stat :=
  let n := fs.inodes i
  ⟨n.body.type, n.perm, n.uid, n.gid, n.dev, i, n.body.rdev, n.nlink⟩

theorem Fs.stat?_eq_some {fs : Fs} {l : Loc} {st : Stat} (h : fs.stat? l = some st) :
    fs.names l = some st.ino ∧ st = fs.statOf st.ino := by
  obtain ⟨i, hi, rfl⟩ := Option.map_eq_some_iff.1 h
  exact ⟨hi, rfl⟩

/-! ## Lookups -/

section

variable {look look' : Loc → Option Body} {follow follow' : Loc → Path → Except Errno Loc}
  {n : Nat} {d d' l : Loc} {p q : Path} {c : Name} {e : Errno}

theorem walkFrom_mono (hlook : ∀ l b, look l = some b → ∃ b', look' l = some b' ∧ b.Alike b')
    (hfollow : ∀ d p l, follow d p = .ok l → follow' d p = .ok l)
    (h : walkFrom look follow d p = .ok l) : walkFrom look' follow' d p = .ok l := by
  induction p generalizing d with
  | nil => exact h
  | cons c cs ih =>
    have hdir {d : Loc} (hd : look d = some .dir) : look' d = some .dir := by
      obtain ⟨b', hb', halike⟩ := hlook d _ hd
      rw [hb', halike.eq_of_not_reg (nofun : Body.dir.type ≠ .reg)]
    unfold walkFrom at h ⊢
    split at h
    · cases h
    · next hd =>
      rw [if_neg fun hd' => hd' (hdir (not_not.1 hd))]
      split at h
      · next hc =>
        rw [if_pos hc]
        exact ih h
      · next hc =>
        rw [if_neg hc]
        split at h
        · next hc' =>
          rw [if_pos hc']
          exact ih h
        · next hc' =>
          rw [if_neg hc']
          split at h
          · cases h
          · next t ht =>
            obtain ⟨b', hb', halike⟩ := hlook _ _ ht
            rw [hb', halike.eq_of_not_reg (nofun : (Body.link t).type ≠ .reg)]
            exact hfollow _ _ _ h
          · next b hnot hb =>
            obtain ⟨b', hb', halike⟩ := hlook _ _ hb
            rw [hb']
            have hnot' : ∀ t, b' ≠ .link t := by
              rintro t rfl
              obtain rfl | ⟨c, c', -, hc⟩ := halike.eq_or
              · exact hnot t rfl
              · cases hc
            cases b' with
            | link t => exact absurd rfl (hnot' t)
            | _ => exact ih h

theorem walk_mono (hlook : ∀ l b, look l = some b → ∃ b', look' l = some b' ∧ b.Alike b')
    (h : walk look n d p = .ok l) : walk look' n d p = .ok l := by
  induction n generalizing d p l with
  | zero => cases h
  | succ n ih => exact walkFrom_mono hlook (fun _ _ _ => ih) h

/-- A path with one more component -/
theorem walk_concat (hwalk : walk look n d q = .ok d') (hd' : look d' = some .dir)
    (hc : special c = false) {b : Body} (hb : look (d' ++ [c]) = some b)
    (hlink : ∀ t, b ≠ .link t) :
    walk look n d (q ++ [c]) = .ok (d' ++ [c]) := by
  have hlast : ∀ follow, walkFrom look follow d' [c] = .ok (d' ++ [c]) := by
    intro follow
    obtain ⟨⟨hnil, hdot⟩, hdd⟩ : (c ≠ [] ∧ c ≠ dot) ∧ c ≠ dotDot := by
      simpa [special] using hc
    unfold walkFrom
    rw [if_neg (not_not.2 hd'), if_neg (not_or.2 ⟨hnil, hdot⟩), if_neg hdd, hb]
    cases b with
    | link t => exact absurd rfl (hlink t)
    | _ => rfl
  induction n generalizing d q with
  | zero => cases hwalk
  | succ n ih =>
    change walkFrom look (walk look n) d q = .ok d' at hwalk
    change walkFrom look (walk look n) d (q ++ [c]) = .ok (d' ++ [c])
    induction q generalizing d with
    | nil =>
      cases hwalk
      exact hlast _
    | cons a as ihq =>
      rw [cons_append]
      unfold walkFrom at hwalk ⊢
      split at hwalk
      · cases hwalk
      · next hd =>
        rw [if_neg hd]
        split at hwalk
        · next ha =>
          rw [if_pos ha]
          exact ihq hwalk
        · next ha =>
          rw [if_neg ha]
          split at hwalk
          · next ha' =>
            rw [if_pos ha']
            exact ihq hwalk
          · next ha' =>
            rw [if_neg ha']
            split at hwalk
            · cases hwalk
            · next t ht =>
              show walk look n _ (t ++ (as ++ [c])) = _
              rw [← append_assoc]
              exact ih hwalk
            · exact ihq hwalk

theorem walk_concat_inv (hc : special c = false) (h : walk look n d (q ++ [c]) = .ok l) :
    ∃ d', walk look n d q = .ok d' ∧ look d' = some .dir ∧ look (d' ++ [c]) ≠ none := by
  induction n generalizing d q with
  | zero => cases h
  | succ n ih =>
    change walkFrom look (walk look n) d (q ++ [c]) = .ok l at h
    show ∃ d', walkFrom look (walk look n) d q = .ok d' ∧ _
    induction q generalizing d with
    | nil =>
      rw [nil_append] at h
      obtain ⟨⟨hnil, hdot⟩, hdd⟩ : (c ≠ [] ∧ c ≠ dot) ∧ c ≠ dotDot := by
        simpa [special] using hc
      refine ⟨d, rfl, ?_⟩
      unfold walkFrom at h
      split at h
      · cases h
      · next hd =>
        rw [if_neg (not_or.2 ⟨hnil, hdot⟩)] at h
        refine ⟨not_not.1 hd, fun hnone => ?_⟩
        rw [hnone] at h
        cases h
    | cons a as ihq =>
      rw [cons_append] at h
      unfold walkFrom at h ⊢
      split at h
      · cases h
      · next hd =>
        rw [if_neg hd]
        split at h
        · next ha =>
          rw [if_pos ha]
          exact ihq h
        · next ha =>
          rw [if_neg ha]
          split at h
          · next ha' =>
            rw [if_pos ha']
            exact ihq h
          · next ha' =>
            rw [if_neg ha']
            split at h
            · cases h
            · next t ht =>
              rw [← append_assoc] at h
              exact ih h
            · exact ihq h

theorem walk_error (h : walk look n d p = .error e) : e = .noent ∨ e = .notdir ∨ e = .loop := by
  induction n generalizing d p with
  | zero =>
    cases h
    exact .inr (.inr rfl)
  | succ n ih =>
    change walkFrom look (walk look n) d p = .error e at h
    induction p generalizing d with
    | nil => cases h
    | cons c cs ihp =>
      unfold walkFrom at h
      split at h
      · cases h
        exact .inr (.inl rfl)
      · split at h
        · exact ihp h
        · split at h
          · exact ihp h
          · split at h
            · cases h
              exact .inl rfl
            · exact ih h
            · exact ihp h

end

namespace Fs

variable {fs fs' fs'' : Fs} {cwd l : Loc} {p : Path}

/-- Every object of one file system is in the other, alike. -/
def Below (fs fs' : Fs) : Prop :=
  ∀ l b, fs.body? l = some b → ∃ b', fs'.body? l = some b' ∧ b.Alike b'

theorem Below.trans (h : fs.Below fs') (h' : fs'.Below fs'') : fs.Below fs'' := by
  intro l b hb
  obtain ⟨b', hb', halike⟩ := h l b hb
  obtain ⟨b'', hb'', halike'⟩ := h' l b' hb'
  exact ⟨b'', hb'', halike.trans halike'⟩

theorem Below.resolve (h : fs.Below fs') (hp : fs.resolve cwd p = .ok l) :
    fs'.resolve cwd p = .ok l := by
  unfold Fs.resolve at hp ⊢
  split at hp
  · cases hp
  · next hne =>
    rw [if_neg hne]
    exact walk_mono h hp

theorem Below.slot (h : fs.Below fs') (hp : fs.slot cwd p = .ok l) : fs'.slot cwd p = .ok l := by
  unfold Fs.slot at hp ⊢
  split at hp
  · cases hp
  · next c hc =>
    split at hp
    · next hs =>
      rw [if_pos hs]
      exact h.resolve hp
    · next hs =>
      rw [if_neg hs]
      split at hp
      · cases hp
      · next d hd =>
        rw [walk_mono h hd]
        split at hp
        · next hdir =>
          obtain ⟨b, hb, halike⟩ := h _ _ hdir
          show (if fs'.body? d = some .dir then _ else _) = _
          rwa [hb, halike.eq_of_not_reg (nofun : Body.dir.type ≠ .reg), if_pos rfl]
        · cases hp

theorem body?_dropLast {l : Loc} (h : fs.body? l ≠ none) : fs.body? l.dropLast ≠ none :=
  fs.body?_of_prefix (List.dropLast_prefix l) h

theorem body?_root (fs : Fs) : fs.body? [] ≠ none := by
  rw [show fs.body? [] = some .dir from fs.root_dir]
  exact nofun

theorem walk_exists {n : Nat} {d : Loc} (hd : fs.body? d ≠ none)
    (h : walk fs.body? n d p = .ok l) : fs.body? l ≠ none := by
  induction n generalizing d p with
  | zero => cases h
  | succ n ih =>
    change walkFrom fs.body? (walk fs.body? n) d p = .ok l at h
    induction p generalizing d with
    | nil =>
      cases h
      exact hd
    | cons c cs ihp =>
      unfold walkFrom at h
      split at h
      · cases h
      · split at h
        · exact ihp hd h
        · split at h
          · exact ihp (body?_dropLast hd) h
          · split at h
            · cases h
            · next t ht =>
              refine ih ?_ h
              split
              · exact fs.body?_root
              · exact hd
            · next b _ hb =>
              refine ihp ?_ h
              rw [hb]
              exact nofun

theorem resolve_exists (hcwd : fs.body? cwd ≠ none) (h : fs.resolve cwd p = .ok l) :
    fs.names l ≠ none := by
  unfold Fs.resolve at h
  split at h
  · cases h
  · intro hnone
    refine walk_exists ?_ h (fs.body?_eq_none.2 hnone)
    split
    · exact fs.body?_root
    · exact hcwd

/-- A place without an object can get one. -/
structure Free (fs : Fs) (l : Loc) : Prop where
  ne_root : l ≠ []
  empty : fs.names l = none
  parent : fs.body? l.dropLast = some .dir

instance (fs : Fs) (l : Loc) : Decidable (fs.Free l) :=
  decidable_of_iff (l ≠ [] ∧ fs.names l = none ∧ fs.body? l.dropLast = some .dir)
    ⟨fun ⟨h₁, h₂, h₃⟩ => ⟨h₁, h₂, h₃⟩, fun h => ⟨h.ne_root, h.empty, h.parent⟩⟩

theorem free_of_slot (hcwd : fs.body? cwd ≠ none) (h : fs.slot cwd p = .ok l)
    (hnone : fs.names l = none) : fs.Free l := by
  unfold Fs.slot at h
  split at h
  · cases h
  · next c hc =>
    split at h
    · exact absurd hnone (resolve_exists hcwd h)
    · split at h
      · cases h
      · next d hd =>
        split at h
        · next hdir =>
          cases h
          exact ⟨append_ne_nil_of_right_ne_nil d (cons_ne_nil c []), hnone,
            by rwa [dropLast_concat]⟩
        · cases h

theorem resolve_of_slot (h : fs.slot cwd p = .ok l) {b : Body} (hb : fs.body? l = some b)
    (hlink : ∀ t, b ≠ .link t) : fs.resolve cwd p = .ok l := by
  unfold Fs.slot at h
  split at h
  · cases h
  · next c hc =>
    split at h
    · exact h
    · next hs =>
      split at h
      · cases h
      · next d hd =>
        split at h
        · next hdir =>
          cases h
          obtain ⟨q, rfl⟩ := getLast?_eq_some_iff.1 hc
          rw [dropLast_concat] at hd
          unfold Fs.resolve
          rw [if_neg, walk_concat hd hdir (Bool.eq_false_iff.2 hs) hb hlink]
          intro hnil
          obtain ⟨-, rfl⟩ : q = [] ∧ c = [] := by
            cases q with
            | nil => exact ⟨rfl, by simpa using hnil⟩
            | cons a q => simp at hnil
          exact hs rfl
        · cases h

theorem slot_congr (h : fs'.body? = fs.body?) : fs'.slot cwd p = fs.slot cwd p := by
  unfold Fs.slot Fs.resolve
  rw [h]

theorem slot_error {e : Errno} (h : fs.slot cwd p = .error e) :
    e = .noent ∨ e = .notdir ∨ e = .loop := by
  unfold Fs.slot at h
  split at h
  · cases h
    exact .inl rfl
  · split at h
    · unfold Fs.resolve at h
      split at h
      · cases h
        exact .inl rfl
      · exact walk_error h
    · split at h
      · next hwalk =>
        cases h
        exact walk_error hwalk
      · split at h
        · cases h
        · cases h
          exact .inr (.inl rfl)

theorem slot_of_resolve (hp : p ≠ []) (h : fs.resolve cwd p = .ok l) :
    ∃ l', fs.slot cwd p = .ok l' ∧ (fs.body? cwd ≠ none → fs.names l' ≠ none) := by
  obtain ⟨q, c, rfl⟩ : ∃ q c, p = q ++ [c] := ⟨_, _, (dropLast_concat_getLast hp).symm⟩
  unfold Fs.slot
  rw [getLast?_concat, dropLast_concat]
  by_cases hc : special c
  · exact ⟨l, (if_pos hc).trans h, fun hcwd => resolve_exists hcwd h⟩
  · unfold Fs.resolve at h
    split at h
    · cases h
    · obtain ⟨d', hd', hdir, hobj⟩ := walk_concat_inv (Bool.eq_false_iff.2 hc) h
      refine ⟨d' ++ [c], ?_, fun _ hnone => hobj (fs.body?_eq_none.2 hnone)⟩
      simp only [hc, Bool.false_eq_true, if_false, hd', hdir, if_true]

end Fs

end Posix
