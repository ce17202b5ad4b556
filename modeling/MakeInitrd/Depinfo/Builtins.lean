import Mathlib.Data.List.AList
import Mathlib.Data.List.DropRight
import MakeInitrd.Depinfo.Modules
import MakeInitrd.Lib.TailQueue

/-!
# The database of builtin modules

`read_kernel_builtin` reads the records `name.field=value` of `kernel.builtin.modinfo` and of
`modules.builtin.modinfo` into a tree of builtins. A builtin is put in the queue
`kbuiltin_with_aliases` when an alias is recorded and its list of aliases is empty; but an alias
that is the empty string is not recorded, so the builtin can be inserted once more. The queue is the
list of the builtins with an alias exactly if no such record comes first (`Timely`).

A file of another format is reported as ignored, but what was read before it is freed as well.
-/

namespace MakeInitrd.Depinfo

open CMem List
open Words (text)

/-! ## Records -/

/-- A record `name.field=value`. -/
structure Record where
  name : Bytes
  field : Bytes
  value : Bytes
deriving DecidableEq

/-- `alias` -/
def aliasField : Bytes := text "alias"

/-- `firmware` -/
def firmwareField : Bytes := text "firmware"

/-- A string is cut at the first `=`, and what stands before it at the last dot. -/
def parseRecord (s : Bytes) : Option Record :=
  if 61 ∈ s then
    let key := s.takeWhile (· ≠ 61)
    if 46 ∈ key then
      some ⟨(key.rdropWhile (· ≠ 46)).dropLast, key.rtakeWhile (· ≠ 46),
        (s.dropWhile (· ≠ 61)).tail⟩
    else none
  else none

/-- The strings of a file, each of them ended by a NUL or by the file. -/
def strings : Bytes → List Bytes
  | [] => []
  | b :: c =>
    if b = 0 then [] :: strings c
    else
      match strings c with
      | [] => [[b]]
      | s :: ss => (b :: s) :: ss

/-- The last page of a mapping is filled with zeros. The last string goes on behind the mapping if
the file does not end it and fills its last page. -/
def overruns (page : Nat) (c : Bytes) : Bool :=
  c.getLast? ≠ some 0 && c.length % page = 0

/-- The strings that end in the mapping -/
def mappedStrings (page : Nat) (c : Bytes) : List Bytes :=
  if overruns page c then (strings c).dropLast else strings c

/-! ## The database -/

/-- The lists of a `struct kernel_builtin`. -/
structure Builtin where
  aliases : List Bytes
  firmware : List Bytes
deriving DecidableEq

/-- `kbuiltin_tree` and `kbuiltin_with_aliases`; a builtin is known by its name. -/
structure Database where
  kbuiltinTree : AList fun _ : Bytes => Builtin
  kbuiltinWithAliases : TailQueue Bytes

/-- `append_string_entry` -/
def appendStringEntry (head : List Bytes) (str : Bytes) : List Bytes :=
  if str = [] then head else head ++ [str]

def Builtin.appendAlias (b : Builtin) (value : Bytes) : Builtin :=
  { b with aliases := appendStringEntry b.aliases value }

def Builtin.appendFirmware (b : Builtin) (value : Bytes) : Builtin :=
  { b with firmware := appendStringEntry b.firmware value }

namespace Database

/-- Before anything is read, and after `free_kernel_builtin`. -/
def empty : Database :=
  ⟨∅, .init⟩

variable (db : Database)

/-- The list `aliases` of a builtin. -/
def aliases (name : Bytes) : List Bytes :=
  ((db.kbuiltinTree.lookup name).map Builtin.aliases).getD []

/-- `append_kernel_builtin`. The link of the new builtin is not read before it is inserted. -/
def appendKernelBuiltin (name : Bytes) : Database :=
  if name ∈ db.kbuiltinTree then db
  else { db with kbuiltinTree := db.kbuiltinTree.insert name ⟨[], []⟩ }

/-- A change of the lists of a builtin. -/
def modify (name : Bytes) (f : Builtin → Builtin) : Database :=
  match db.kbuiltinTree.lookup name with
  | none => db
  | some b => { db with kbuiltinTree := db.kbuiltinTree.insert name (f b) }

/-- `STAILQ_INSERT_TAIL`, if the list of aliases is empty -/
def insertAliased (name : Bytes) : Database :=
  if db.aliases name = [] then
    { db with kbuiltinWithAliases := db.kbuiltinWithAliases.insertTail name }
  else db

/-- `append_kernel_builtin_alias` -/
def appendKernelBuiltinAlias (name value : Bytes) : Database :=
  (db.insertAliased name).modify name (·.appendAlias value)

/-- What `read_kernel_builtin` does with a record. -/
def add (r : Record) : Database :=
  let db := db.appendKernelBuiltin r.name
  if r.field = aliasField then db.appendKernelBuiltinAlias r.name r.value
  else if r.field = firmwareField then
    db.modify r.name (·.appendFirmware r.value)
  else db

end Database

/-! ## Reading files -/

/-- What opening and mapping a file gives. -/
inductive Modinfo where
  /-- `ENOENT` -/
  | missing
  /-- another error -/
  | error
  | content (c : Bytes)

/-- What `read_kernel_builtin` comes to. -/
inductive Reading where
  /-- it returns -1 -/
  | failed
  | read (db : Database)
  /-- after "Unexpected file format: ... (ignored)." -/
  | ignored (db : Database)
  /-- `strdup` goes on behind the mapping -/
  | beyond

/-- The loop over the strings; `none` if one of them is no record. -/
def readStrings (db : Database) : List Bytes → Option Database
  | [] => some db
  | s :: ss =>
    match parseRecord s with
    | none => none
    | some r => readStrings (db.add r) ss

/-- `read_kernel_builtin`; an empty file cannot be mapped. -/
def readKernelBuiltin (page : Nat) (db : Database) : Modinfo → Reading
  | .missing => .read db
  | .error => .failed
  | .content c =>
    if c = [] then .failed
    else
      match readStrings db (mappedStrings page c) with
      | some db => if overruns page c then .beyond else .read db
      | none => .ignored .empty

/-- `find_kernel_builtin` returns this builtin, or NULL. -/
def Finds (fnmatch : Bytes → Bytes → Bool) (db : Database) (str : Bytes) (b : Option Bytes) :
    Prop :=
  if str = [] then b = none
  else if str ∈ db.kbuiltinTree then b = some str
  else
    Loop.Returns (db.kbuiltinWithAliases.search fun x => (db.aliases x).any fun e => fnmatch e str)
      db.kbuiltinWithAliases.first b

/-- The records of a file. -/
def records (c : Bytes) : List Record :=
  (strings c).filterMap parseRecord

/-- The database after some records. -/
def load (rs : List Record) : Database :=
  rs.foldl Database.add .empty

/-! ## What the database holds -/

/-- The aliases that the records give to a builtin. -/
def aliasesOf (rs : List Record) (name : Bytes) : List Bytes :=
  (rs.filter fun r => r.name = name ∧ r.field = aliasField ∧ r.value ≠ []).map Record.value

section
variable {rs rs' : List Record} {r : Record} {db : Database} {name x : Bytes}
  {c : Bytes} {fnmatch : Bytes → Bytes → Bool} {page : Nat}

theorem load_concat (rs : List Record) (r : Record) : load (rs ++ [r]) = (load rs).add r :=
  foldl_concat ..

theorem lookup_appendKernelBuiltin (db : Database) (name x : Bytes) :
    (db.appendKernelBuiltin name).kbuiltinTree.lookup x =
      if x = name then some ((db.kbuiltinTree.lookup x).getD ⟨[], []⟩)
        else db.kbuiltinTree.lookup x := by
  unfold Database.appendKernelBuiltin
  by_cases hmem : name ∈ db.kbuiltinTree
  · rw [if_pos hmem]
    split
    · next hx =>
      obtain ⟨b, hb⟩ := Option.isSome_iff_exists.1 (AList.lookup_isSome.2 hmem)
      rw [hx, hb]
      rfl
    · rfl
  · rw [if_neg hmem]
    split
    · next hx =>
      rw [hx, AList.lookup_insert, AList.lookup_eq_none.2 hmem]
      rfl
    · next hx => exact AList.lookup_insert_ne hx

theorem lookup_modify (db : Database) (name x : Bytes) (f : Builtin → Builtin) :
    (db.modify name f).kbuiltinTree.lookup x =
      if x = name then (db.kbuiltinTree.lookup x).map f else db.kbuiltinTree.lookup x := by
  unfold Database.modify
  by_cases hx : x = name
  · subst hx
    rw [if_pos rfl]
    cases hb : db.kbuiltinTree.lookup x with
    | none => exact hb
    | some b => exact AList.lookup_insert _
  · rw [if_neg hx]
    cases db.kbuiltinTree.lookup name with
    | none => rfl
    | some b => exact AList.lookup_insert_ne hx

theorem aliases_appendKernelBuiltin (db : Database) (name x : Bytes) :
    (db.appendKernelBuiltin name).aliases x = db.aliases x := by
  unfold Database.aliases
  rw [lookup_appendKernelBuiltin]
  split
  · cases db.kbuiltinTree.lookup x <;> rfl
  · rfl

theorem aliases_modify {b : Builtin} {f : Builtin → Builtin}
    (hb : db.kbuiltinTree.lookup name = some b) (x : Bytes) :
    (db.modify name f).aliases x = if x = name then (f b).aliases else db.aliases x := by
  unfold Database.aliases
  rw [lookup_modify]
  split
  · next hx =>
    rw [hx, hb]
    rfl
  · rfl

theorem kbuiltinTree_insertAliased (db : Database) (name : Bytes) :
    (db.insertAliased name).kbuiltinTree = db.kbuiltinTree := by
  unfold Database.insertAliased
  split <;> rfl

theorem aliases_insertAliased (db : Database) (name x : Bytes) :
    (db.insertAliased name).aliases x = db.aliases x := by
  unfold Database.aliases
  rw [kbuiltinTree_insertAliased]

theorem mem_appendKernelBuiltin :
    x ∈ (db.appendKernelBuiltin name).kbuiltinTree ↔ x = name ∨ x ∈ db.kbuiltinTree := by
  rw [← AList.lookup_isSome, lookup_appendKernelBuiltin]
  split
  · next hx => simp [hx]
  · next hx => simp [hx, AList.lookup_isSome]

theorem mem_modify {f : Builtin → Builtin} :
    x ∈ (db.modify name f).kbuiltinTree ↔ x ∈ db.kbuiltinTree := by
  rw [← AList.lookup_isSome, lookup_modify, ← AList.lookup_isSome]
  split
  · rw [Option.isSome_map]
  · rfl

theorem mem_add : x ∈ (db.add r).kbuiltinTree ↔ x = r.name ∨ x ∈ db.kbuiltinTree := by
  unfold Database.add Database.appendKernelBuiltinAlias
  dsimp only
  split
  · rw [mem_modify, kbuiltinTree_insertAliased, mem_appendKernelBuiltin]
  · split
    · rw [mem_modify, mem_appendKernelBuiltin]
    · exact mem_appendKernelBuiltin

theorem aliases_add (db : Database) (r : Record) (x : Bytes) : (db.add r).aliases x =
      if x = r.name ∧ r.field = aliasField then appendStringEntry (db.aliases x) r.value
      else db.aliases x := by
  have hmem : r.name ∈ (db.appendKernelBuiltin r.name).kbuiltinTree :=
    mem_appendKernelBuiltin.2 (.inl rfl)
  obtain ⟨b, hb⟩ := Option.isSome_iff_exists.1 (AList.lookup_isSome.2 hmem)
  have haliases : b.aliases = db.aliases r.name := by
    rw [← aliases_appendKernelBuiltin db r.name r.name, Database.aliases, hb]
    rfl
  unfold Database.add Database.appendKernelBuiltinAlias
  by_cases hfield : r.field = aliasField
  · have hb' := hb
    rw [← kbuiltinTree_insertAliased _ r.name] at hb'
    simp only [hfield, if_true, and_true]
    rw [aliases_modify hb', aliases_insertAliased, aliases_appendKernelBuiltin]
    split
    · next hx =>
      rw [hx, ← haliases]
      rfl
    · rfl
  · simp only [hfield, if_false, and_false]
    split
    · rw [aliases_modify hb, aliases_appendKernelBuiltin]
      split
      · next hx => exact hx ▸ haliases
      · rfl
    · exact aliases_appendKernelBuiltin db r.name x

theorem kbuiltinWithAliases_modify (db : Database) (name : Bytes) (f : Builtin → Builtin) :
    (db.modify name f).kbuiltinWithAliases = db.kbuiltinWithAliases := by
  unfold Database.modify
  split <;> rfl

theorem kbuiltinWithAliases_appendKernelBuiltin (db : Database) (name : Bytes) :
    (db.appendKernelBuiltin name).kbuiltinWithAliases = db.kbuiltinWithAliases := by
  unfold Database.appendKernelBuiltin
  split <;> rfl

theorem kbuiltinWithAliases_add (db : Database) (r : Record) : (db.add r).kbuiltinWithAliases =
      if r.field = aliasField ∧ db.aliases r.name = [] then db.kbuiltinWithAliases.insertTail r.name
      else db.kbuiltinWithAliases := by
  unfold Database.add Database.appendKernelBuiltinAlias Database.insertAliased
  by_cases hfield : r.field = aliasField
  · simp only [hfield, if_true, true_and]
    rw [kbuiltinWithAliases_modify, aliases_appendKernelBuiltin]
    split
    · rw [kbuiltinWithAliases_appendKernelBuiltin]
    · exact kbuiltinWithAliases_appendKernelBuiltin db r.name
  · simp only [hfield, if_false, false_and]
    split
    · rw [kbuiltinWithAliases_modify, kbuiltinWithAliases_appendKernelBuiltin]
    · exact kbuiltinWithAliases_appendKernelBuiltin db r.name

theorem aliasesOf_concat (rs : List Record) (r : Record) (x : Bytes) : aliasesOf (rs ++ [r]) x =
      if x = r.name ∧ r.field = aliasField then appendStringEntry (aliasesOf rs x) r.value
      else aliasesOf rs x := by
  unfold aliasesOf appendStringEntry
  rw [filter_append, map_append]
  by_cases hx : x = r.name
  · by_cases hfield : r.field = aliasField <;> by_cases hvalue : r.value = [] <;>
      simp [hx, hfield, hvalue]
  · simp [hx, Ne.symm hx]

theorem aliases_load (rs : List Record) (x : Bytes) : (load rs).aliases x = aliasesOf rs x := by
  induction rs using reverseRecOn with
  | nil => rfl
  | append_singleton rs r ih => rw [load_concat, aliases_add, aliasesOf_concat, ih]

theorem mem_load : x ∈ (load rs).kbuiltinTree ↔ ∃ r ∈ rs, r.name = x := by
  induction rs using reverseRecOn with
  | nil =>
    refine iff_of_false ?_ (by simp)
    exact AList.notMem_empty x
  | append_singleton rs r ih =>
    rw [load_concat, mem_add, ih]
    simp only [mem_append, mem_singleton, or_and_right, exists_or, exists_eq_left]
    rw [or_comm, eq_comm]

/-! ## The queue of the builtins with aliases -/

/-- The database after some records is well formed: the queue is the list of the builtins with an
alias, each once, and `find_kernel_builtin` returns and finds what the records name or describe. -/
structure WellFormed (fnmatch : Bytes → Bytes → Bool) (rs : List Record) : Prop where
  listed : ∃ l, (load rs).kbuiltinWithAliases.Lists l ∧ ∀ x, x ∈ l ↔ aliasesOf rs x ≠ []
  found : ∀ str, ∃ b, Finds fnmatch (load rs) str b ∧
    (b.isSome ↔ (∃ r ∈ rs, r.name = str) ∨ ∃ x, ∃ e ∈ aliasesOf rs x, fnmatch e str)

/-- An empty alias is only recorded for a builtin that has an alias. -/
def Timely (rs : List Record) : Prop :=
  ∀ rs₁ r rs₂, rs = rs₁ ++ r :: rs₂ → r.field = aliasField → r.value = [] →
    aliasesOf rs₁ r.name ≠ []

/-- The condition on the records; `find_kernel_builtin` finds nothing for the empty string. -/
structure Recorded (fnmatch : Bytes → Bytes → Bool) (rs : List Record) : Prop where
  timely : Timely rs
  named : ∀ r ∈ rs, r.name ≠ []
  patterns : ∀ x, ∀ e ∈ aliasesOf rs x, fnmatch e [] = false

theorem Timely.of_append (h : Timely (rs ++ rs')) : Timely rs := by
  rintro rs₁ r rs₂ rfl
  exact h rs₁ r (rs₂ ++ rs') (by simp)

theorem timely_nil : Timely [] := by
  intro rs₁ r rs₂ h
  exact absurd h (by simp)

theorem Timely.concat (h : Timely rs)
    (hr : r.field = aliasField → r.value = [] → aliasesOf rs r.name ≠ []) : Timely (rs ++ [r]) := by
  intro rs₁ r' rs₂ heq
  rcases eq_nil_or_concat rs₂ with rfl | ⟨rs₂, r'', rfl⟩
  · obtain ⟨rfl, hr'⟩ := append_inj' heq rfl
    cases hr'
    exact hr
  · rw [concat_eq_append, ← cons_append, ← append_assoc] at heq
    exact h rs₁ r' rs₂ (append_inj' heq rfl).1

/-- While no empty alias comes too early the queue is the list of the builtins with an alias. The
induction is on the records. -/
theorem Timely.holds (h : Timely rs) :
    ∃ l, (load rs).kbuiltinWithAliases.Holds l ∧ ∀ x, x ∈ l ↔ aliasesOf rs x ≠ [] := by
  induction rs using reverseRecOn with
  | nil => exact ⟨[], TailQueue.holds_init, fun x => by simp [aliasesOf]⟩
  | append_singleton rs r ih =>
    obtain ⟨l, hl, hmem⟩ := ih h.of_append
    rw [load_concat, kbuiltinWithAliases_add, aliases_load]
    simp only [aliasesOf_concat]
    split
    · next hr =>
      -- the first alias of the builtin, which is not empty
      have hvalue : r.value ≠ [] := fun hvalue => h rs r [] rfl hr.1 hvalue hr.2
      have hnot : r.name ∉ l := fun hin => (hmem r.name).1 hin hr.2
      refine ⟨l ++ [r.name], hl.insertTail hnot, fun x => ?_⟩
      rw [mem_append, mem_singleton, hmem]
      by_cases hx : x = r.name
      · simp [hx, hr.1, appendStringEntry, hvalue]
      · simp [hx]
    · next hr =>
      refine ⟨l, hl, fun x => ?_⟩
      rw [hmem]
      split
      · next hx =>
        have hne : aliasesOf rs x ≠ [] := fun hnil => hr ⟨hx.2, hx.1 ▸ hnil⟩
        unfold appendStringEntry
        split <;> simp [hne]
      · rfl

theorem finds_of_lists {l : List Bytes} {str : Bytes} (hl : (load rs).kbuiltinWithAliases.Lists l)
    (hmem : ∀ x, x ∈ l ↔ aliasesOf rs x ≠ []) (hstr : str ≠ []) :
    ∃ b, Finds fnmatch (load rs) str b ∧
      (b.isSome ↔ (∃ r ∈ rs, r.name = str) ∨ ∃ x, ∃ e ∈ aliasesOf rs x, fnmatch e str) := by
  simp only [Finds, if_neg hstr]
  by_cases hname : str ∈ (load rs).kbuiltinTree
  · simp only [if_pos hname]
    exact ⟨some str, rfl, iff_of_true rfl (.inl (mem_load.1 hname))⟩
  · simp only [if_neg hname]
    refine ⟨_, hl.search, ?_⟩
    rw [find?_isSome, or_iff_right fun hr => hname (mem_load.2 hr)]
    simp only [aliases_load, any_eq_true]
    refine ⟨fun ⟨x, _, hx⟩ => ⟨x, hx⟩, fun ⟨x, e, he, hmatch⟩ => ⟨x, ?_, e, he, hmatch⟩⟩
    exact (hmem x).2 (ne_nil_of_mem he)

theorem Recorded.wellFormed (h : Recorded fnmatch rs) : WellFormed fnmatch rs := by
  obtain ⟨l, hl, hmem⟩ := h.timely.holds
  refine ⟨⟨l, hl.toLists, hmem⟩, fun str => ?_⟩
  by_cases hstr : str = []
  · subst hstr
    refine ⟨none, by rw [Finds, if_pos rfl], iff_of_false nofun ?_⟩
    rintro (⟨r, hr, hname⟩ | ⟨x, e, he, hmatch⟩)
    · exact h.named r hr hname
    · cases (h.patterns x e he).symm.trans hmatch
  · exact finds_of_lists hl.toLists hmem hstr

theorem aliasesOf_append (rs rs' : List Record) (x : Bytes) :
    aliasesOf (rs ++ rs') x = aliasesOf rs x ++ aliasesOf rs' x := by
  unfold aliasesOf
  rw [filter_append, map_append]

theorem Recorded.of_append (h : Recorded fnmatch (rs ++ rs')) : Recorded fnmatch rs where
  timely := h.timely.of_append
  named r hr := h.named r (mem_append_left _ hr)
  patterns x e he := h.patterns x e (by
    rw [aliasesOf_append]
    exact mem_append_left _ he)

/-- An empty alias that comes too early leaves a builtin without aliases in the queue. -/
theorem Timely.of_wellFormed (h : ∀ rs₁, rs₁ <+: rs → WellFormed fnmatch rs₁) : Timely rs := by
  induction rs using reverseRecOn with
  | nil => exact timely_nil
  | append_singleton rs r ih =>
    have htimely := ih fun rs₁ hrs₁ => h rs₁ (hrs₁.trans (prefix_append rs [r]))
    refine htimely.concat fun hfield hvalue hnil => ?_
    obtain ⟨l, hl, hmem⟩ := htimely.holds
    obtain ⟨l', hl', hmem'⟩ := (h (rs ++ [r]) prefix_rfl).listed
    rw [load_concat, kbuiltinWithAliases_add, aliases_load, if_pos ⟨hfield, hnil⟩] at hl'
    have hnot : r.name ∉ l := fun hin => (hmem r.name).1 hin hnil
    have heq := (hl.insertTail hnot).toLists.unique hl'
    refine (hmem' r.name).1 (heq ▸ mem_append_right _ (mem_singleton_self _)) ?_
    rw [aliasesOf_concat, if_pos ⟨rfl, hfield⟩, appendStringEntry, if_pos hvalue, hnil]

theorem WellFormed.empty_string (h : WellFormed fnmatch rs) :
    (∀ r ∈ rs, r.name ≠ []) ∧ ∀ x, ∀ e ∈ aliasesOf rs x, fnmatch e [] = false := by
  obtain ⟨b, hb, hiff⟩ := h.found []
  unfold Finds at hb
  rw [if_pos rfl] at hb
  subst hb
  have hnot : ¬((∃ r ∈ rs, r.name = []) ∨ ∃ x, ∃ e ∈ aliasesOf rs x, fnmatch e []) :=
    fun hor => nomatch hiff.2 hor
  refine ⟨fun r hr hname => hnot (.inl ⟨r, hr, hname⟩), fun x e he => ?_⟩
  exact Bool.eq_false_iff.2 fun hmatch => hnot (.inr ⟨x, e, he, hmatch⟩)

theorem wellFormed_iff_recorded :
    (∀ rs₁, rs₁ <+: rs → WellFormed fnmatch rs₁) ↔ Recorded fnmatch rs := by
  constructor
  · intro h
    obtain ⟨hnamed, hpatterns⟩ := (h rs prefix_rfl).empty_string
    exact ⟨.of_wellFormed h, hnamed, hpatterns⟩
  · rintro h rs₁ ⟨rs₂, rfl⟩
    exact h.of_append.wellFormed

/-! ## Files -/

/-- A content of records, each ended by a NUL. -/
structure Regular (c : Bytes) : Prop where
  terminated : c.getLast? = some 0
  formed : ∀ s ∈ strings c, (parseRecord s).isSome

theorem readStrings_eq (db : Database) {ss : List Bytes} (h : ∀ s ∈ ss, (parseRecord s).isSome) :
    readStrings db ss = some ((ss.filterMap parseRecord).foldl Database.add db) := by
  induction ss generalizing db with
  | nil => rfl
  | cons s ss ih =>
    obtain ⟨r, hr⟩ := Option.isSome_iff_exists.1 (h s mem_cons_self)
    rw [readStrings, hr, filterMap_cons_some hr]
    exact ih (db.add r) fun s hs => h s (mem_cons_of_mem _ hs)

theorem Regular.overruns_eq (h : Regular c) : overruns page c = false := by
  rw [overruns, h.terminated]
  rfl

theorem Regular.read (h : Regular c) (rs : List Record) :
    readKernelBuiltin page (load rs) (.content c) = .read (load (rs ++ records c)) := by
  have hc : c ≠ [] := by
    rintro rfl
    cases h.terminated
  unfold readKernelBuiltin mappedStrings
  dsimp only
  rw [if_neg hc, h.overruns_eq, if_neg Bool.false_ne_true, readStrings_eq _ h.formed, load, load,
    foldl_append]
  rfl

/-- After two files of records the database is that of all the records, and it is well formed all
the time exactly under the condition on the records. -/
theorem kernelBuiltins_wellFormed_iff (fnmatch : Bytes → Bytes → Bool) (page : Nat) (c₁ c₂ : Bytes)
    (h₁ : Regular c₁) (h₂ : Regular c₂) :
    readKernelBuiltin page .empty (.content c₁) = .read (load (records c₁)) ∧
    readKernelBuiltin page (load (records c₁)) (.content c₂) =
      .read (load (records c₁ ++ records c₂)) ∧
    ((∀ rs, rs <+: records c₁ ++ records c₂ → WellFormed fnmatch rs) ↔
      Recorded fnmatch (records c₁ ++ records c₂)) :=
  ⟨h₁.read [], h₂.read (records c₁), wellFormed_iff_recorded⟩

/-- A name alone is a pattern that describes itself. -/
def literally (pattern str : Bytes) : Bool :=
  pattern = str

theorem timely_of_values (h : ∀ r ∈ rs, r.field = aliasField → r.value ≠ []) : Timely rs := by
  rintro rs₁ r rs₂ rfl hfield hvalue
  exact absurd hvalue (h r (by simp) hfield)

/-- The records `a.alias=x` and `b.firmware=f`. -/
theorem kernelBuiltins_wellFormed_sample :
    WellFormed literally (records (text "a.alias=x\x00") ++ records (text "b.firmware=f\x00")) := by
  refine (kernelBuiltins_wellFormed_iff literally 4096 (text "a.alias=x\x00")
    (text "b.firmware=f\x00") ⟨by decide, by decide⟩ ⟨by decide, by decide⟩).2.2.2
    ⟨timely_of_values (by decide), by decide, fun x e he => ?_⟩ _ prefix_rfl
  have hvalue : ∀ r ∈ records (text "a.alias=x\x00") ++ records (text "b.firmware=f\x00"),
      literally r.value [] = false := by decide
  obtain ⟨r, hr, rfl⟩ := mem_map.1 he
  exact hvalue r (mem_of_mem_filter hr)

/-- The records `a.alias=` and `a.alias=x`, and in the second file `b.firmware=f`: the builtin `a`
is linked to itself, and `find_kernel_builtin` does not return for `y`. -/
theorem not_kernelBuiltins_wellFormed :
    Regular (text "a.alias=\x00a.alias=x\x00") ∧
    Regular (text "b.firmware=f\x00") ∧
    ¬WellFormed literally
      (records (text "a.alias=\x00a.alias=x\x00") ++ records (text "b.firmware=f\x00")) := by
  refine ⟨⟨by decide, by decide⟩, ⟨by decide, by decide⟩, fun h => ?_⟩
  obtain ⟨b, hb, -⟩ := h.found [121]
  unfold Finds at hb
  rw [if_neg (by decide), if_neg fun hmem => absurd (mem_load.1 hmem) (by decide),
    show (load _).kbuiltinWithAliases.first = some [97] by decide +kernel] at hb
  exact TailQueue.not_returns_search (by decide +kernel) (by decide +kernel) b hb

/-! ## Files of another format -/

/-- Some string of the content is no record. -/
def Malformed (page : Nat) (c : Bytes) : Prop :=
  ∃ s ∈ mappedStrings page c, parseRecord s = none

theorem readStrings_eq_none (db : Database) {ss : List Bytes} (h : ∃ s ∈ ss, parseRecord s = none) :
    readStrings db ss = none := by
  induction ss generalizing db with
  | nil =>
    obtain ⟨s, hs, -⟩ := h
    cases hs
  | cons s ss ih =>
    rw [readStrings]
    cases hr : parseRecord s with
    | none => rfl
    | some r =>
      obtain ⟨s', hs', hnone⟩ := h
      refine ih (db.add r) ⟨s', (mem_cons.1 hs').resolve_left ?_, hnone⟩
      rintro rfl
      cases hr.symm.trans hnone

theorem Malformed.ignored (h : Malformed page c) (db : Database) :
    readKernelBuiltin page db (.content c) = .ignored .empty := by
  have hc : c ≠ [] := by
    rintro rfl
    obtain ⟨s, hs, -⟩ := h
    rw [mappedStrings, strings, dropLast_nil, ite_self] at hs
    cases hs
  unfold readKernelBuiltin
  dsimp only
  rw [if_neg hc, readStrings_eq_none db h]

/-- A file that is reported as ignored changes nothing exactly if there was nothing before it. -/
theorem ignored_unchanged_iff (page : Nat) (db : Database) (c : Bytes) (h : Malformed page c) :
    ∃ db', readKernelBuiltin page db (.content c) = .ignored db' ∧ (db' = db ↔ db = .empty) :=
  ⟨.empty, h.ignored db, eq_comm⟩

theorem ignored_unchanged_first :
    ∃ db', readKernelBuiltin 4096 .empty (.content [98, 0]) = .ignored db' ∧
      (db' = .empty ↔ Database.empty = .empty) :=
  ignored_unchanged_iff 4096 .empty [98, 0] ⟨[98], by decide, by decide⟩

/-- After the record `a.alias=x` a second file with the string `b` removes the builtin `a`. -/
theorem not_ignored_unchanged :
    Malformed 4096 [98, 0] ∧ ∃ db',
      readKernelBuiltin 4096 (load [⟨[97], aliasField, [120]⟩]) (.content [98, 0]) =
      .ignored db' ∧ db' ≠ load [⟨[97], aliasField, [120]⟩] := by
  have hmalformed : Malformed 4096 [98, 0] := ⟨[98], by decide, by decide⟩
  refine ⟨hmalformed, .empty, hmalformed.ignored _, fun heq => ?_⟩
  have hmem : [97] ∈ (load [⟨[97], aliasField, [120]⟩]).kbuiltinTree := mem_load.2 (by decide)
  rw [← heq] at hmem
  exact AList.notMem_empty _ hmem

end

end MakeInitrd.Depinfo
