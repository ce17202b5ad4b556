import MakeInitrd.Kickstart.Parse

/-!
# The commands of a script

A script is cut into its lines (`items`), and `Expands` says which commands it stands for when each
`%include` is replaced by the file it names. The parser opens `$1` of an `%include` line, and that
is the word `%include` itself; a line of blanks has no `$1` at all; and a word that is a pattern for
a command is taken for a command, but has no phase. So the parser comes to the end of a script only
without such lines (`Item.Passable`, `passable_of_ksParse`).
-/

namespace MakeInitrd.Kickstart

open CMem Glob Words List

/-! ## Scripts -/

/-- A line of a script; a line that is passed over is a comment, the end of a section or a line of
one. -/
inductive Item where
  | skip
  | blank
  | «include» (l : Bytes)
  | ksappend
  | head (l : Bytes)
  | command (l : Bytes)
deriving DecidableEq, Repr

/-- What a line is, in the body or in a section, and whether the next one is in the body -/
def item (body : Bool) (l : Bytes) : Item × Bool :=
  if isComment l && body then (.skip, body)
  else if isDirective kwInclude l then (.include l, body)
  else if isDirective kwKsappend l then (.ksappend, body)
  else if l = kwEnd then (.skip, true)
  else if !body then (.skip, false)
  else if words l = [] then (.blank, true)
  else if l.head? = some 37 then (.head l, false)
  else (.command l, true)

def itemsFrom : Nat → Bool → Bytes → List Item
  | 0, _, _ => []
  | fuel + 1, body, s =>
    let (l, rest) := readLine body s
    (item body l).1 :: match rest with
      | none => []
      | some s => itemsFrom fuel (item body l).2 s

def items (script : Bytes) : List Item := itemsFrom (lines script) true script

/-- The phase of the command of a line -/
def order (l : Bytes) : Option Nat := (words l).head?.bind ksOrder

def phase (l : Bytes) : Nat := (order l).getD 0

/-- The lines `is` stand for the commands `cs`, and the parser has no reason to reject them. The
arrays are those before and behind the lines. -/
inductive Expands (env : Env) : Arrays → List Item → Arrays → List Bytes → Prop
  | nil {a} : Expands env a [] a []
  | skip {a b is cs} : Expands env a is b cs → Expands env a (.skip :: is) b cs
  | blank {a b is cs} : Expands env a is b cs → Expands env a (.blank :: is) b cs
  | head {a a' b is cs l w kwd num} : (words l).head? = some w → openSection a l w =
    some (kwd, num, a') →
      Expands env a' is b cs → Expands env a (.head l :: is) b cs
  | unknown {a b is cs l} : order l = none → Expands env a is b cs →
    Expands env a (.command l :: is) b cs
  | command {a b is cs l w} : (words l).head? = some w → (ksOrder w).isSome →
    ksCheckRequires env a w = true →
      Expands env a is b cs → Expands env a (.command l :: is) b (l :: cs)
  | include {a a' b is cs cs' l w file ws s} : env.split l = w :: file :: ws →
    env.files file = some s →
      Expands env a (items s) a' cs → Expands env a' is b cs' →
        Expands env a (.include l :: is) b (cs ++ cs')

/-- A line that does not end the parser, unless the script is rejected: it is neither an `%include`
line nor a line of blanks, and its command is not found by mistake. -/
def Item.Passable : Item → Prop
  | .include _ => False
  | .blank => False
  | .command l => ∀ w, (words l).head? = some w → isUnknown w = false → (ksOrder w).isSome
  | _ => True

theorem count_readCooked (s : Bytes) :
    ∀ s', (readCooked s).2 = some s' → s'.count 10 < s.count 10 := by
  fun_induction readCooked s with
  | case1 => simp
  | case2 s =>
    rintro s' ⟨⟩
    simp
  | case3 => simp
  | case4 s ih =>
    intro s' h
    have := ih s' h
    simp only [count_cons]
    omega
  | case5 c s _ ih =>
    intro s' h
    have := ih s' h
    simp only [count_cons]
    omega
  | case6 c s _ _ _ _ ih =>
    intro s' h
    have := ih s' h
    simp only [count_cons]
    omega

theorem count_readRaw (s : Bytes) : ∀ s', (readRaw s).2 = some s' → s'.count 10 < s.count 10 := by
  fun_induction readRaw s with
  | case1 => simp
  | case2 s =>
    rintro s' ⟨⟩
    simp
  | case3 c s _ ih =>
    intro s' h
    have := ih s' h
    simp only [count_cons]
    omega

theorem lines_readLine {body : Bool} {s s' : Bytes} (h : (readLine body s).2 = some s') :
    lines s' < lines s := by
  rw [readLine] at h
  split_ifs at h
  · exact Nat.succ_lt_succ (count_readCooked s s' h)
  · exact Nat.succ_lt_succ (count_readRaw s s' h)

theorem length_itemsFrom (fuel : Nat) (body : Bool) (s : Bytes) :
    (itemsFrom fuel body s).length ≤ fuel := by
  induction fuel generalizing body s with
  | zero => exact Nat.le_refl 0
  | succ fuel ih =>
    rcases h : readLine body s with ⟨l, _ | s'⟩
    · simp [itemsFrom, h]
    · simpa [itemsFrom, h] using ih _ s'

/-! ## Known commands -/

theorem parse_star (s : Bytes) : parse (42 :: s) = .star :: parse s := rfl

theorem isUnknown_eq_false {w : Bytes} (hw : ∀ c ∈ w, isPlain c = true) :
    isUnknown w = false ↔ ∃ a b, ksCommands = a ++ 44 :: (w ++ 44 :: b) := by
  have hplain : ∀ c ∈ 44 :: (w ++ [44]), isPlain c = true := by
    intro c hc
    simp only [mem_cons, mem_append, not_mem_nil, or_false] at hc
    rcases hc with rfl | hc | rfl
    · rfl
    · exact hw c hc
    · rfl
  have hparse :
      parse ([42, 44] ++ w ++ [44, 42]) = .star :: ((44 :: (w ++ [44])).map .lit ++ [.star]) := by
    have hlist : [42, 44] ++ w ++ [44, 42] = 42 :: ((44 :: (w ++ [44])) ++ [42]) := by simp
    rw [hlist, parse_star, parse_plain hplain]
    rfl
  rw [isUnknown, decide_eq_false_iff_not, not_not, hparse,
    hashHash_eq_nil _ (by simp [ksCommands]), isMatch_star]
  constructor
  · rintro ⟨a, t, hat, ht⟩
    obtain ⟨b, rfl, -⟩ := (isMatch_lits _ _ _).1 ht
    exact ⟨a, b, by rw [hat]; simp⟩
  · rintro ⟨a, b, hab⟩
    refine ⟨a, _, hab,
      (isMatch_lits _ _ _).2 ⟨b, by simp, (isMatch_star _ _).2 ⟨b, [], by simp, rfl⟩⟩⟩

theorem plain_of_mem_ksOrders : ∀ r ∈ ksOrders, ∀ c ∈ text r.2, isPlain c = true ∧ c ≠ 44 := by
  have hall : (ksOrders.all fun r => (text r.2).all fun c => isPlain c && c != 44) = true := by
    decide +kernel
  simpa only [all_eq_true, Bool.and_eq_true, bne_iff_ne] using hall

theorem mem_of_ksOrder {w : Bytes} {k : Nat} (h : ksOrder w = some k) :
    ∃ r ∈ ksOrders, text r.2 = w ∧ r.1 = k := by
  obtain ⟨r, hr, rfl⟩ := Option.map_eq_some_iff.1 h
  have hname := find?_some hr
  exact ⟨r, mem_reverse.1 (mem_of_find?_eq_some hr), of_decide_eq_true hname, rfl⟩

theorem ksOrder_of_mem {r : Nat × String} (hr : r ∈ ksOrders) : (ksOrder (text r.2)).isSome := by
  rw [ksOrder, Option.isSome_map, find?_isSome]
  exact ⟨r, mem_reverse.2 hr, decide_eq_true rfl⟩

theorem isUnknown_of_ksOrder {w : Bytes} (h : (ksOrder w).isSome) : isUnknown w = false := by
  obtain ⟨k, hk⟩ := Option.isSome_iff_exists.1 h
  obtain ⟨r, hr, rfl, -⟩ := mem_of_ksOrder hk
  refine (isUnknown_eq_false fun c hc => (plain_of_mem_ksOrders r hr c hc).1).2 ?_
  obtain ⟨rs, rs', hrs⟩ := append_of_mem hr
  obtain ⟨a, ha⟩ : ∃ a, 44 :: rs.flatMap (fun r => text r.2 ++ [44]) = a ++ [44] := by
    rcases eq_nil_or_concat rs with rfl | ⟨rs, r', rfl⟩
    · exact ⟨[], rfl⟩
    · exact ⟨44 :: (rs.flatMap fun r => text r.2 ++ [44]) ++ text r'.2, by simp⟩
  refine ⟨a, rs'.flatMap fun r => text r.2 ++ [44], ?_⟩
  calc ksCommands = (44 :: rs.flatMap fun r => text r.2 ++ [44]) ++
        (text r.2 ++ 44 :: rs'.flatMap fun r => text r.2 ++ [44]) := by simp [ksCommands, hrs]
    _ = _ := by rw [ha]; simp

theorem mem_of_between {names : List Bytes} (hnames : ∀ n ∈ names, 44 ∉ n) {w : Bytes}
    (hw : 44 ∉ w) {a b : Bytes}
    (h : 44 :: names.flatMap (· ++ [44]) = a ++ 44 :: (w ++ 44 :: b)) : w ∈ names := by
  induction names generalizing a with
  | nil =>
    have := congrArg length h
    simp at this
    omega
  | cons n names ih =>
    have hn := hnames n mem_cons_self
    have htail : ∀ n ∈ names, 44 ∉ n := fun m hm => hnames m (mem_cons_of_mem _ hm)
    rw [flatMap_cons, append_assoc, singleton_append] at h
    cases a with
    | nil =>
      have heq := congrArg (takeWhile (· ≠ 44)) (cons.inj h).2
      rw [Span.takeWhile_stop (by grind) (by simp), Span.takeWhile_stop (by grind) (by simp)] at heq
      exact heq ▸ mem_cons_self
    | cons c a =>
      refine mem_cons_of_mem _ ?_
      rcases append_eq_append_iff.1 (cons.inj h).2 with ⟨t, rfl, ht⟩ | ⟨t, rfl, ht⟩
      · exact ih htail ht
      · cases t with
        | nil => exact ih (a := []) htail ht.symm
        | cons d t => exact absurd (by simp [(cons.inj ht).1]) hn

theorem Item.passable_of_plain {l : Bytes}
    (h : ∀ w ∈ (words l).head?, ∀ c ∈ w, isPlain c = true ∧ c ≠ 44) :
    (Item.command l).Passable := by
  intro w hhead hfound
  have hw := h w hhead
  obtain ⟨a, b, hab⟩ := (isUnknown_eq_false fun c hc => (hw c hc).1).1 hfound
  have hcommands : ksCommands = 44 :: (ksOrders.map fun r => text r.2).flatMap (· ++ [44]) := by
    rw [ksCommands, flatMap_map]
  have hmem : w ∈ ksOrders.map fun r => text r.2 := by
    refine mem_of_between ?_ (fun hc => (hw 44 hc).2 rfl) (hcommands ▸ hab)
    intro n hn
    obtain ⟨r, hr, rfl⟩ := mem_map.1 hn
    exact fun hc => (plain_of_mem_ksOrders r hr 44 hc).2 rfl
  obtain ⟨r, hr, rfl⟩ := mem_map.1 hmem
  exact ksOrder_of_mem hr

/-! ## The parser -/

theorem ksLine_cases (env : Env) (sec : Section) (lineno : Nat) (l : Bytes) (st : State) :
    (∃ sec' st', item sec.isNone l = (.skip, sec'.isNone) ∧ ksLine env sec lineno l st =
      .next sec' st' ∧
      st'.arrays = st.arrays ∧ st'.body = st.body) ∨
    ((item sec.isNone l).1 = .include l ∧ isDirective kwInclude l = true ∧
      ksLine env sec lineno l st = .include) ∨
    ((item sec.isNone l).1 = .ksappend ∧ ksLine env sec lineno l st = .stop .ksappend) ∨
    ((item sec.isNone l).1 = .blank ∧ ksLine env sec lineno l st = .stop .unbound) ∨
    (∃ w ws, words l = w :: ws ∧ item sec.isNone l = (.head l, false) ∧ l.head? = some 37 ∧
      ksLine env sec lineno l st = ksBodyLine env lineno l st (w :: ws)) ∨
    ∃ w ws, words l = w :: ws ∧ item sec.isNone l = (.command l, true) ∧ l.head? ≠ some 37 ∧
      ksLine env sec lineno l st = ksBodyLine env lineno l st (w :: ws) := by
  simp only [item, ksLine]
  by_cases hcomment : (isComment l && sec.isNone) = true
  · refine .inl ⟨sec, st, ?_⟩
    simp [hcomment]
  by_cases hinclude : isDirective kwInclude l = true
  · refine .inr (.inl ?_)
    simp [hcomment, hinclude]
  by_cases happend : isDirective kwKsappend l = true
  · refine .inr (.inr (.inl ?_))
    simp [hcomment, hinclude, happend]
  by_cases hend : l = kwEnd
  · refine .inl ⟨none, st, ?_⟩
    simp only [hcomment, hinclude, happend, if_pos hend]
    exact ⟨rfl, rfl, trivial, trivial⟩
  simp only [hcomment, hinclude, happend, hend, if_false]
  cases sec with
  | some name =>
    refine .inl ⟨some name, _, ?_, rfl, rfl, rfl⟩
    simp
  | none =>
    cases hw : words l with
    | nil =>
      refine .inr (.inr (.inr (.inl ?_)))
      simp [ksBodyLine]
    | cons w ws =>
      refine .inr (.inr (.inr (.inr ?_)))
      by_cases hhead : l.head? = some 37
      · exact .inl ⟨w, ws, rfl, by simp [hhead], hhead, rfl⟩
      · exact .inr ⟨w, ws, rfl, by simp [hhead], hhead, rfl⟩

section
variable {env : Env} {sec sec' : Section} {lineno fuel : Nat} {l w s : Bytes} {ws : List Bytes}
    {st st' : State}
  {rest : Option Bytes}

theorem ksBodyLine_next (h : ksBodyLine env lineno l st (w :: ws) = .next sec' st') :
    l.head? = some 37 ∧ sec'.isNone = false ∨
      l.head? ≠ some 37 ∧ sec'.isNone = true ∧ (isUnknown w = false → (ksOrder w).isSome) := by
  rw [ksBodyLine] at h
  by_cases hhead : l.head? = some 37
  · rw [if_pos hhead] at h
    split at h
    · cases h
    · cases h
      exact .inl ⟨hhead, rfl⟩
  · rw [if_neg hhead] at h
    refine .inr ⟨hhead, ?_⟩
    split_ifs at h with hunknown
    · cases h
      exact ⟨rfl, fun hfound => absurd hunknown (by rw [hfound]; exact Bool.false_ne_true)⟩
    · split at h
      · cases h
      · rename_i hsome
        cases h
        exact ⟨rfl, fun _ => hsome ▸ rfl⟩

theorem ksBodyLine_ne_include : ksBodyLine env lineno l st (w :: ws) ≠ .include := by
  rw [ksBodyLine]
  repeat' split
  all_goals exact Act.noConfusion

theorem ksParse_next (hline : readLine sec.isNone s = (l, rest))
    (hnext : ksLine env sec (lineno + 1) l st = .next sec' st') :
    ksParse env (fuel + 1) sec lineno s st = rest.elim (.ok st') fun s =>
      ksParse env fuel sec' (lineno + 1) s st' := by
  cases rest <;> simp only [ksParse, hline, hnext, Option.elim]

theorem ksParse_stop {e : Stop} (hline : readLine sec.isNone s = (l, rest))
    (hstop : ksLine env sec (lineno + 1) l st = .stop e) :
    ksParse env (fuel + 1) sec lineno s st = .error e := by
  simp only [ksParse, hline, hstop]

theorem ksParse_include (hline : readLine sec.isNone s = (l, rest))
    (hdir : isDirective kwInclude l = true)
    (hincl : ksLine env sec (lineno + 1) l st = .include) (fuel : Nat) :
    ∃ e, ksParse env (fuel + 1) sec lineno s st = .error e := by
  simp only [ksParse, hline, hincl]
  cases hfile : (env.split l).head? with
  | none => exact ⟨_, rfl⟩
  | some file =>
    obtain rfl := env.split_include l file hdir hfile
    simp only [env.files_include]
    exact ⟨_, rfl⟩

/-- A script that is parsed to its end has passable items only. -/
theorem passable_of_ksParse (h : ksParse env fuel sec lineno s st = .ok st') :
    ∀ i ∈ itemsFrom fuel sec.isNone s, i.Passable := by
  induction fuel generalizing sec lineno s st with
  | zero => simp [itemsFrom]
  | succ fuel ih =>
    rcases hline : readLine sec.isNone s with ⟨l, rest⟩
    -- The lines behind one that the parser goes on behind
    have hgo :
        ∀ sec' st₁, ksLine env sec (lineno + 1) l st = .next sec' st₁ →
          (item sec.isNone l).2 = sec'.isNone →
        (item sec.isNone l).1.Passable → ∀ i ∈ itemsFrom (fuel + 1) sec.isNone s, i.Passable := by
      intro sec' st₁ hnext hbody hpass i hi
      rw [ksParse_next hline hnext] at h
      simp only [itemsFrom, hline, hbody] at hi
      rcases mem_cons.1 hi with rfl | hi
      · exact hpass
      · cases rest with
        | none => cases hi
        | some s' => exact ih h i hi
    rcases ksLine_cases env sec (lineno + 1) l st with
      ⟨sec', st₁, hitem, hnext, -⟩ | ⟨-, hdir, hincl⟩ | ⟨-, hstop⟩ | ⟨-, hstop⟩
        | ⟨w, ws, -, hitem, hhead, hbody⟩ |
      ⟨w, ws, hwords, hitem, hhead, hbody⟩
    · exact hgo sec' st₁ hnext (by rw [hitem]) (by rw [hitem]; trivial)
    · obtain ⟨e, he⟩ := ksParse_include hline hdir hincl fuel
      rw [he] at h
      cases h
    · rw [ksParse_stop hline hstop] at h
      cases h
    · rw [ksParse_stop hline hstop] at h
      cases h
    all_goals
      cases hact : ksBodyLine env (lineno + 1) l st (w :: ws) with
      | stop e =>
        rw [ksParse_stop hline (hbody.trans hact)] at h
        cases h
      | «include» => exact absurd hact ksBodyLine_ne_include
      | next sec' st₁ => ?_
    · obtain ⟨-, hsec⟩ | ⟨hne, -⟩ := ksBodyLine_next hact
      · exact hgo sec' st₁ (hbody.trans hact) (by rw [hitem, hsec]) (by rw [hitem]; trivial)
      · exact absurd hhead hne
    · obtain ⟨heq, -⟩ | ⟨-, hsec, hfound⟩ := ksBodyLine_next hact
      · exact absurd heq hhead
      · refine hgo sec' st₁ (hbody.trans hact) (by rw [hitem, hsec]) ?_
        rw [hitem]
        intro w' hw'
        obtain rfl : w = w' := by simpa [hwords] using hw'
        exact hfound

/-- The line numbers and texts of the commands, where `n` lines were read before -/
def numbered : Nat → List Item → List (Nat × Bytes)
  | _, [] => []
  | n, .command l :: is =>
    if (order l).isSome then (n + 1, l) :: numbered (n + 1) is else numbered (n + 1) is
  | n, _ :: is => numbered (n + 1) is

/-- What is kept of a command -/
def entry (r : Nat × Bytes) : Nat × Bytes := (r.1 + phase r.2, r.2)

theorem itemsFrom_succ {body : Bool} (hline : readLine body s = (l, rest)) :
    itemsFrom (fuel + 1) body s = (item body l).1 ::
      rest.elim [] (itemsFrom fuel (item body l).2) := by
  cases rest <;> simp only [itemsFrom, hline, Option.elim]

theorem order_of_words (hw : words l = w :: ws) : order l = ksOrder w := by
  rw [order, hw]
  rfl

/-- The parser keeps the commands of a script that it does not reject, each with its line number and
its phase. -/
theorem ksParse_of_expands {a b : Arrays} {is : List Item} {cs : List Bytes}
    (hexp : Expands env a is b cs)
    (his : itemsFrom fuel sec.isNone s = is) (hfuel : lines s ≤ fuel) (harr : st.arrays = a)
    (hpass : ∀ i ∈ is, i.Passable) :
    ∃ st', ksParse env fuel sec lineno s st = .ok st' ∧ st'.body = st.body ++
      (numbered lineno is).map entry := by
  induction fuel generalizing sec lineno s st a is cs with
  | zero => exact absurd hfuel (Nat.not_succ_le_zero _)
  | succ fuel ih =>
    rcases hline : readLine sec.isNone s with ⟨l, rest⟩
    rw [itemsFrom_succ hline] at his
    subst his
    have hpassTail := fun i hi => hpass i (mem_cons_of_mem _ hi)
    have hpassHead := hpass _ mem_cons_self
    have hgo :
        ∀ sec' st₁ cs', ksLine env sec (lineno + 1) l st = .next sec' st₁ →
          (item sec.isNone l).2 = sec'.isNone →
        Expands env st₁.arrays (rest.elim [] (itemsFrom fuel (item sec.isNone l).2)) b cs' →
        ∃ st', ksParse env (fuel + 1) sec lineno s st = .ok st' ∧ st'.body = st₁.body ++
          (numbered (lineno + 1) (rest.elim [] (itemsFrom fuel (item sec.isNone l).2))).map
            entry := by
      intro sec' st₁ cs' hnext hbody hexp'
      rw [ksParse_next hline hnext]
      rw [hbody] at hexp' hpassTail ⊢
      cases rest with
      | none => exact ⟨st₁, rfl, by simp [numbered]⟩
      | some s' =>
        have hlines : lines s' < lines s := lines_readLine (congrArg Prod.snd hline)
        exact ih hexp' rfl (by omega) rfl hpassTail
    subst harr
    rcases ksLine_cases env sec (lineno + 1) l st with
      ⟨sec', st₁, hitem, hnext, harrays, hbody⟩ | ⟨hitem, -⟩ | ⟨hitem, -⟩ | ⟨hitem, -⟩ |
      ⟨w, ws, hwords, hitem, hhead, hact⟩ | ⟨w, ws, hwords, hitem, hhead, hact⟩
    · rw [hitem] at hexp hgo ⊢
      cases hexp with
      | skip htail => exact hbody ▸ hgo sec' st₁ cs hnext rfl (harrays ▸ htail)
    · rw [hitem] at hpassHead
      exact hpassHead.elim
    · rw [hitem] at hexp
      cases hexp
    · rw [hitem] at hpassHead
      exact hpassHead.elim
    · rw [hitem] at hexp hgo ⊢
      cases hexp with
      | @head _ a' _ _ _ _ w' kwd num hw hopen htail =>
        obtain rfl : w = w' := by simpa [hwords] using hw
        refine hgo (some (kwd, num)) { st with arrays := a' } cs ?_ rfl htail
        rw [hact, ksBodyLine, if_pos hhead, hopen]
    · rw [hitem] at hexp hgo hpassHead ⊢
      have hfound := hpassHead w (by rw [hwords]; rfl)
      have horder := order_of_words hwords
      cases hexp with
      | unknown hnone htail =>
        have hunknown : isUnknown w = true := by
          rw [← Bool.not_eq_false]
          intro hknown
          have := hfound hknown
          rw [← horder, hnone] at this
          cases this
        obtain ⟨st', hst', hbody⟩ := hgo none
          { st with messages := st.messages ++ [(lineno + 1, w)] } cs (by
          rw [hact, ksBodyLine, if_neg hhead, if_pos hunknown]) rfl htail
        exact ⟨st', hst', by rw [hbody, numbered, hnone]; rfl⟩
      | command hw hsome hreq htail =>
        obtain rfl : w = _ := by simpa [hwords] using hw
        obtain ⟨k, hk⟩ := Option.isSome_iff_exists.1 hsome
        obtain ⟨st', hst', hbody⟩ := hgo none
          { st with body := st.body ++ [(lineno + 1 + k, l)] } _ (by
          rw [hact, ksBodyLine, if_neg hhead, isUnknown_of_ksOrder hsome, hreq, hk]
          rfl) rfl htail
        refine ⟨st', hst', ?_⟩
        rw [hbody, numbered, horder, if_pos hsome, map_cons, entry, phase, horder, hk]
        simp

end

end MakeInitrd.Kickstart
