import MakeInitrd.Lib.StableSort
import MakeInitrd.Kickstart.Script

/-!
# The order of the commands

The commands of a script are to be executed in the order of their phases (`InOrder`). The numbers by
which the lines are sorted do that, as long as a line number is smaller than the distance of two
phases; so the script executes what it should if no line of it ends the parser
(`executes_in_order_iff`).
-/

namespace MakeInitrd.Kickstart

open CMem Glob Words List

/-- The executed lines are the commands, stably sorted by their phases, with the generated steps at
theirs. A line is marked if it is a generated one. -/
def InOrder (cmds executed : List Bytes) : Prop :=
  ∃ marked : List (Bool × Bytes), executed = marked.map (·.2) ∧
    (marked.Pairwise fun a b => phase a.2 ≤ phase b.2) ∧
    (marked.filter (!·.1)).map (·.2) = cmds.insertionSort (fun a b => phase a ≤ phase b) ∧
    ((marked.filter (·.1)).map (·.2)).Perm ksSteps

/-! ## Lines with their numbers -/

/-- A line of `ks:body`: the line of a command, or a generated step with its place among them -/
structure Line where
  generated : Bool
  n : Nat
  text : Bytes

def Line.phase (r : Line) : Nat := Kickstart.phase r.text

def Line.key (r : Line) : Nat := r.n + r.phase

/-- The number and the text of a line -/
def Line.entry (r : Line) : Nat × Bytes := (r.key, r.text)

def commandLine (r : Nat × Bytes) : Line := ⟨false, r.1, r.2⟩

def stepLine (r : Bytes × Nat) : Line := ⟨true, r.2, r.1⟩

theorem entry_steps : (ksSteps.zipIdx.map stepLine).map Line.entry = stepLines := by
  decide +kernel

instance : Std.Total lineLe where
  total a b := by
    rcases lt_trichotomy a.1 b.1 with h | h | h
    · exact .inl (.inl h)
    · exact (List.le_total a.2 b.2).imp (fun hle => .inr ⟨h, hle⟩) fun hle => .inr ⟨h.symm, hle⟩
    · exact .inr (.inl h)

instance : IsTrans (Nat × Bytes) lineLe where
  trans a b c := by
    rintro (hab | ⟨hab, hab'⟩) (hbc | ⟨hbc, hbc'⟩)
    · exact .inl (hab.trans hbc)
    · exact .inl (hbc ▸ hab)
    · exact .inl (hab ▸ hbc)
    · exact .inr ⟨hab.trans hbc, List.le_trans hab' hbc'⟩

theorem ksOrders_gap : ∀ r ∈ ksOrders, ∀ r' ∈ ksOrders, r.1 < r'.1 → r.1 + 10000000 ≤ r'.1 := by
  have hall :
      (ksOrders.all fun r => ksOrders.all fun r' => r'.1.ble r.1 || (r.1 + 10000000).ble r'.1) =
        true := by
    decide +kernel
  simp only [all_eq_true, Bool.or_eq_true, Nat.ble_eq] at hall
  intro r hr r' hr' hlt
  exact (hall r hr r' hr').resolve_left (Nat.not_le.2 hlt)

/-- The line number is small, and the phase is one of the table. -/
structure Line.Ok (r : Line) : Prop where
  n_lt : r.n < 10000000
  phase_mem : ∃ o ∈ ksOrders, o.1 = r.phase

theorem Line.Ok.phase_le {r r' : Line} (h : r.Ok) (h' : r'.Ok) (hkey : r.key ≤ r'.key) :
    r.phase ≤ r'.phase := by
  obtain ⟨o, ho, hphase⟩ := h.phase_mem
  obtain ⟨o', ho', hphase'⟩ := h'.phase_mem
  by_contra hlt
  have hgap := ksOrders_gap o' ho' o ho (by omega)
  have hn := h'.n_lt
  rw [Line.key, Line.key] at hkey
  omega

/-! ## The sort -/

section
variable {ds : List Line}

def sorted (ds : List Line) : List Line := ds.insertionSort fun a b => lineLe a.entry b.entry

theorem map_sorted : (sorted ds).map Line.entry = (ds.map Line.entry).insertionSort lineLe :=
  map_insertionSort _ _ _ _ fun _ _ _ _ => Iff.rfl

theorem perm_sorted (ds : List Line) : (sorted ds).Perm ds := perm_insertionSort _ _

theorem pairwise_sorted : (sorted ds).Pairwise fun a b => a.key ≤ b.key := by
  have h : ((sorted ds).map Line.entry).Pairwise lineLe := by
    rw [map_sorted]
    exact pairwise_insertionSort _ _
  refine (pairwise_map.1 h).imp ?_
  rintro a b (hlt | ⟨heq, -⟩)
  · exact hlt.le
  · exact heq.le

theorem pairwise_phase (hok : ∀ r ∈ ds, r.Ok) :
    (sorted ds).Pairwise fun a b => a.phase ≤ b.phase := by
  refine pairwise_sorted.imp_of_mem fun ha hb hkey => ?_
  exact (hok _ ((perm_sorted ds).mem_iff.1 ha)).phase_le
    (hok _ ((perm_sorted ds).mem_iff.1 hb)) hkey

theorem filter_sorted {p : Line → Bool} {k : Nat} (hp : ∀ r, p r = true → r.phase = k)
    (hn : (ds.filter p).Pairwise fun a b => a.n < b.n) : (sorted ds).filter p = ds.filter p := by
  have hphase : ∀ r ∈ ds.filter p, r.phase = k := fun r hr => hp r (mem_filter.1 hr).2
  have hkey : (ds.filter p).Pairwise fun a b => a.key < b.key := by
    refine hn.imp_of_mem fun ha hb hlt => ?_
    rw [Line.key, Line.key, hphase _ ha, hphase _ hb]
    omega
  have hperm : ((sorted ds).filter p).Perm (ds.filter p) := (perm_sorted ds).filter p
  refine List.Perm.eq_of_pairwise ?_ (pairwise_sorted.filter p) (hkey.imp le_of_lt) hperm
  intro a b ha hb hab hba
  have hnodup : ((ds.filter p).map Line.key).Nodup := pairwise_map.2 (hkey.imp ne_of_lt)
  exact inj_on_of_nodup_map hnodup (hperm.mem_iff.1 ha) hb (le_antisymm hab hba)

end

theorem steps_ok :
    ∀ r ∈ ksSteps.zipIdx, (stepLine r).n < 10000000 ∧ ∃ o ∈ ksOrders, o.1 = (stepLine r).phase := by
  decide +kernel

/-- The lines of commands with growing line numbers, and the generated steps, are sorted into their
order. -/
theorem inOrder_sorted {rs : List (Nat × Bytes)} (hn : rs.Pairwise fun a b => a.1 < b.1)
    (hok : ∀ r ∈ rs, (commandLine r).Ok) :
    InOrder (rs.map (·.2)) (((rs.map entry ++ stepLines).insertionSort lineLe).map (·.2)) := by
  let ds := rs.map commandLine ++ ksSteps.zipIdx.map stepLine
  have hdsOk : ∀ d ∈ ds, d.Ok := by
    intro d hd
    rcases mem_append.1 hd with hd | hd
    · obtain ⟨r, hr, rfl⟩ := mem_map.1 hd
      exact hok r hr
    · obtain ⟨r, hr, rfl⟩ := mem_map.1 hd
      obtain ⟨hn, hphase⟩ := steps_ok r hr
      exact ⟨hn, hphase⟩
  have hentries : rs.map entry ++ stepLines = ds.map Line.entry := by
    rw [map_append, entry_steps, map_map]
    rfl
  have hcommands : ds.filter (!·.generated) = rs.map commandLine := by
    simp [ds, filter_append, filter_map, Function.comp_def, commandLine, stepLine]
  have hsteps : ds.filter (·.generated) = ksSteps.zipIdx.map stepLine := by
    simp [ds, filter_append, filter_map, Function.comp_def, commandLine, stepLine]
  refine ⟨(sorted ds).map fun d => (d.generated, d.text), ?_, ?_, ?_, ?_⟩
  · rw [hentries, ← map_sorted, map_map, map_map]
    rfl
  · exact pairwise_map.2 (pairwise_phase hdsOk)
  · rw [filter_map, map_map]
    refine StableSort.eq_insertionSort ?_ fun k => ?_
    · exact pairwise_map.2 ((pairwise_phase hdsOk).filter _)
    · -- The commands of one phase are as they were.
      have hgrow :
          (ds.filter fun d => d.phase = k && !d.generated).Pairwise fun a b => a.n < b.n := by
        rw [← filter_filter, hcommands]
        have hmap : (rs.map commandLine).Pairwise fun a b => a.n < b.n := pairwise_map.2 hn
        exact hmap.filter _
      have hphase : ∀ d : Line, (d.phase = k && !d.generated) = true → d.phase = k := by
        intro d hd
        exact of_decide_eq_true (Bool.and_eq_true_iff.1 hd).1
      have hsame := filter_sorted hphase hgrow
      rw [← filter_filter, ← filter_filter, hcommands] at hsame
      rw [filter_map, filter_map]
      have htexts := congrArg (map Line.text) hsame
      rw [filter_map, map_map] at htexts
      exact htexts
  · rw [filter_map, map_map]
    have hperm := (perm_sorted ds).filter (·.generated)
    rw [hsteps] at hperm
    have htexts := hperm.map Line.text
    rw [map_map] at htexts
    refine htexts.trans (List.Perm.of_eq ?_)
    exact zipIdx_map_fst 0 ksSteps

/-! ## The commands of a script -/

theorem numbered_cons (n : Nat) (i : Item) (is : List Item) :
    numbered n (i :: is) = numbered (n + 1) is ∨
      ∃ l, (order l).isSome ∧ numbered n (i :: is) = (n + 1, l) :: numbered (n + 1) is := by
  cases i with
  | command l =>
    rw [numbered]
    split_ifs with h
    · exact .inr ⟨l, h, rfl⟩
    · exact .inl rfl
  | _ => exact .inl rfl

theorem numbered_bounds {n : Nat} {is : List Item} :
    ∀ r ∈ numbered n is, n < r.1 ∧ r.1 ≤ n + is.length ∧ (order r.2).isSome := by
  induction is generalizing n with
  | nil => simp [numbered]
  | cons i is ih =>
    intro r hr
    have htail :
        ∀ r ∈ numbered (n + 1) is, n < r.1 ∧ r.1 ≤ n + (i :: is).length ∧ (order r.2).isSome := by
      intro r hr
      obtain ⟨hlo, hhi, horder⟩ := ih r hr
      rw [length_cons]
      exact ⟨by omega, by omega, horder⟩
    rcases numbered_cons n i is with heq | ⟨l, horder, heq⟩
    · exact htail r (heq ▸ hr)
    · rw [heq] at hr
      rcases mem_cons.1 hr with rfl | hr
      · exact ⟨Nat.lt_succ_self n, by simp, horder⟩
      · exact htail r hr

theorem numbered_pairwise (n : Nat) (is : List Item) :
    (numbered n is).Pairwise fun a b => a.1 < b.1 := by
  induction is generalizing n with
  | nil => exact .nil
  | cons i is ih =>
    rcases numbered_cons n i is with heq | ⟨l, -, heq⟩
    · exact heq ▸ ih (n + 1)
    · rw [heq]
      exact .cons (fun r hr => (numbered_bounds r hr).1) (ih (n + 1))

theorem numbered_of_expands {env : Env} {a b : Arrays} {is : List Item} {cs : List Bytes}
    (h : Expands env a is b cs)
    (hpass : ∀ i ∈ is, i.Passable) (n : Nat) : (numbered n is).map (·.2) = cs := by
  induction h generalizing n with
  | nil => rfl
  | skip _ ih | blank _ ih | head _ _ _ ih =>
    exact ih (fun i hi => hpass i (mem_cons_of_mem _ hi)) (n + 1)
  | unknown hnone _ ih =>
    rw [numbered, hnone]
    exact ih (fun i hi => hpass i (mem_cons_of_mem _ hi)) (n + 1)
  | command hw hsome _ _ ih =>
    rw [numbered, if_pos (by rw [order, hw]; exact hsome), map_cons,
      ih (fun i hi => hpass i (mem_cons_of_mem _ hi)) (n + 1)]
  | «include» => exact (hpass _ mem_cons_self).elim

theorem commandLine_ok {script : Bytes} (hlines : lines script < 10000000) :
    ∀ r ∈ numbered 0 (items script), (commandLine r).Ok := by
  intro r hr
  obtain ⟨-, hhi, horder⟩ := numbered_bounds r hr
  have hlength : (items script).length ≤ lines script := length_itemsFrom _ _ _
  refine ⟨show r.1 < 10000000 by omega, ?_⟩
  obtain ⟨k, hk⟩ := Option.isSome_iff_exists.1 horder
  obtain ⟨w, -, hw⟩ := Option.bind_eq_some_iff.1 hk
  obtain ⟨o, ho, -, rfl⟩ := mem_of_ksOrder hw
  refine ⟨o, ho, ?_⟩
  show o.1 = phase r.2
  rw [phase, hk]
  rfl

theorem head?_words_include {l f : Bytes} (hdir : isDirective kwInclude l = true)
    (hf : (words l).head? = some f) :
    f = kwInclude := by
  rcases Bool.or_eq_true_iff.1 hdir with heq | hpre
  · rw [of_decide_eq_true heq] at hf
    exact (Option.some.inj hf).symm
  · obtain ⟨t, rfl⟩ := List.isPrefixOf_iff_prefix.1 hpre
    rw [append_assoc, singleton_append,
      words_append (by decide +kernel) (by decide +kernel) rfl] at hf
    exact (Option.some.inj hf).symm

/-- All utilities are installed, there is one file, and lines are split at blanks. -/
def oneFile : Env where
  files f := if f = text "/f" then some (text "lang c\n") else none
  installed _ := true
  split := words
  files_include := rfl
  split_include _ _ := head?_words_include

end MakeInitrd.Kickstart
