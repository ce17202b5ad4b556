import MakeInitrd.Put.Queue

/-!
# When the cache of libraries is transparent

A file is served from the cache if all names that it needs are there, and then `ldd` is not asked
for it. A path is lost in some order of the files exactly if files that do not list it can fill the
cache with all names that those need that list it (`elfCache_transparent_iff`). That happens with a
library that has an RPATH: the cache takes a path that was found there for every file that needs the
name.
-/

namespace MakeInitrd.Put

open Posix List

/-!
## The libraries of a file

`enqueue_libraries` remembers what `ldd` lists, by class, machine and soname. `ldd` is not part of
the repository. Here it loads objects as the dynamic loader does: every needed name that is not
loaded yet is searched in the directories of the RPATH or RUNPATH of the object that needs it and
then in the default ones, breadth first.
-/

/-! ### ELF files -/

/-- An entry of the dynamic section. A name that is not in the string table is `none`. -/
inductive Dyn where
  | null
  | rpath (dirs : List Path)
  | runpath (dirs : List Path)
  | needed (soname : Option Name)
  | other
deriving DecidableEq

/-- What is read of an ELF file. -/
structure Elf where
  elfClass : UInt8
  elfMachine : UInt16
  /-- the path in `PT_INTERP`, or the empty one -/
  interp : Path
  /-- the first section of type `SHT_DYNAMIC` -/
  dynamic : Option (List Dyn)
  /-- what the names in the notes about `dlopen` lead to -/
  dlopen : List Path
deriving DecidableEq

/-- The loop over the dynamic section: `has_rpath` and `needed_names`. -/
def readDynamic : List Dyn → Bool × List Name
  | [] | .null :: _ => (false, [])
  | .rpath _ :: ds | .runpath _ :: ds => (true, (readDynamic ds).2)
  | .needed (some soname) :: ds =>
    let (hasRpath, names) := readDynamic ds
    (hasRpath, if soname = [] then names else soname :: names)
  | .needed none :: ds | .other :: ds => readDynamic ds

namespace Elf

variable (e : Elf)

def hasRpath : Bool :=
  e.dynamic.any fun ds => (readDynamic ds).1

def needed : List Name :=
  (e.dynamic.map fun ds => (readDynamic ds).2).getD []

/-- The directories of the RPATH and RUNPATH. -/
def searchDirs : List Path :=
  ((e.dynamic.getD []).takeWhile (· ≠ .null)).flatMap fun
    | .rpath dirs | .runpath dirs => dirs
    | _ => []

def interp? : Option Path :=
  if isAbsolute e.interp then some e.interp else none

end Elf

/-! ### The loader -/

/-- A line of `ldd` with an address: a name and what it was resolved to, or a path alone. -/
structure Line where
  soname : Option Name
  path : Path
deriving DecidableEq

/-- `key_soname`: the soname of a line, or the last component of its path. -/
def Line.keySoname (l : Line) : Option Name :=
  match l.soname with
  | some (c :: cs) => some (c :: cs)
  | _ => if l.path.getLastD [] = [] then none else some (l.path.getLastD [])

/-- The name under which the object is loaded. -/
def Line.name (l : Line) : Name :=
  l.keySoname.getD []

/-- What is loaded before the needed names: the interpreter. -/
def Elf.preloaded (e : Elf) : List Line :=
  e.interp?.toList.map fun p => ⟨none, p⟩

/-- The ELF files that there are and the default search path. -/
structure Libraries where
  objects : List (Path × Elf)
  defaultDirs : List Path

namespace Libraries

variable (libs : Libraries)

def elf? (p : Path) : Option Elf :=
  (libs.objects.find? fun o => o.1 = p).map Prod.snd

/-- The object that the loader takes for a name that `o` needs. -/
def resolve (o : Elf) (n : Name) : Option Path :=
  (o.searchDirs ++ libs.defaultDirs).findSome? fun dir =>
    if (libs.elf? (dir ++ [n])).any fun x => x.elfClass = o.elfClass ∧ x.elfMachine =
      o.elfMachine then
      some (dir ++ [n])
    else none

/-- The file and the objects loaded for it. -/
def loaded (e : Elf) (lines : List Line) : List Elf :=
  e :: lines.filterMap fun l => libs.elf? l.path

def next (e : Elf) (lines : List Line) : Option Line :=
  (libs.loaded e lines).findSome? fun o => o.needed.findSome? fun n =>
    if n ∈ lines.map Line.name then none else (libs.resolve o n).map fun p => ⟨some n, p⟩

/-- At most `fuel` further names. -/
def load (e : Elf) : Nat → List Line → List Line
  | 0, lines => lines
  | fuel + 1, lines =>
    match libs.next e lines with
    | none => lines
    | some l => load e fuel (lines ++ [l])

def names (e : Elf) : List Name :=
  e.needed ++ libs.objects.flatMap fun o => o.2.needed

/-- The lines of `ldd` for a file. -/
def ldd (e : Elf) : List Line :=
  libs.load e (libs.names e).length e.preloaded

end Libraries

/-! ### The cache -/

/-- The key of a `struct elf_cache_entry`. -/
structure CacheKey where
  elfClass : UInt8
  elfMachine : UInt16
  soname : Name
deriving DecidableEq

/-- The tree at `elf_cache_root`. -/
abbrev ElfCache := List (CacheKey × Path)

/-- `elf_cache_lookup` -/
def elfCacheLookup (cache : ElfCache) (key : CacheKey) : Option Path :=
  (cache.find? fun e => e.1 = key).map Prod.snd

/-- `elf_cache_insert`: an entry that is there stays. -/
def elfCacheInsert (cache : ElfCache) (e : CacheKey × Path) : ElfCache :=
  if (elfCacheLookup cache e.1).isSome then cache else e :: cache

structure LibraryState where
  work : Work
  cache : ElfCache

def Work.enqueueLibrary (env : Env) (w : Work) (p : Path) : Work :=
  if w.isPathAdded p then w else w.enqueueItem env p id

/-- The entry that is to be made for a line. -/
def Elf.pending (e : Elf) (l : Line) : Option (CacheKey × Path) :=
  l.keySoname.map fun n => (⟨e.elfClass, e.elfMachine, n⟩, l.path)

/-- `enqueue_shared_libraries`, with what `ldd` has written. -/
def enqueueSharedLibraries (env : Env) (lines : List Line) (e : Elf) (canCache : Bool)
    (s : LibraryState) : LibraryState :=
  let lines := lines.filter fun l => isAbsolute l.path
  { work := (lines.map Line.path).foldl (Work.enqueueLibrary env) s.work
    cache := if canCache then (lines.filterMap e.pending).foldl elfCacheInsert s.cache
      else s.cache }

/-- The entry of the cache for a needed name. -/
def Elf.cached (e : Elf) (cache : ElfCache) (n : Name) : Option Path :=
  elfCacheLookup cache ⟨e.elfClass, e.elfMachine, n⟩

/-- `all_in_cache` -/
def Elf.allInCache (e : Elf) (disabled : Bool) (cache : ElfCache) : Bool :=
  !e.hasRpath && !disabled && e.needed.all fun n => (e.cached cache n).isSome

/-- `enqueue_libraries`; `disabled` is what `is_elf_cache_disabled` says. -/
def enqueueLibraries (env : Env) (libs : Libraries) (disabled : Bool) (s : LibraryState)
    (filename : Path) : LibraryState :=
  match libs.elf? filename with
  | none => s
  | some e =>
    if e.dynamic.isNone then s
    else
      let s :=
        if e.allInCache disabled s.cache then
          { s with
            work := (e.needed.filterMap (e.cached s.cache) ++ e.interp?.toList).foldl
              (Work.enqueueLibrary env) s.work }
        else enqueueSharedLibraries env (libs.ldd e) e (!e.hasRpath && !disabled) s
      { s with work := e.dlopen.foldl (Work.enqueueLibrary env) s.work }

/-- The files one after the other, with a cache that is empty at first. -/
def enqueueAll (env : Env) (libs : Libraries) (disabled : Bool) (w : Work) (files : List Path) :
    LibraryState :=
  files.foldl (enqueueLibraries env libs disabled) ⟨w, []⟩

/-! ## What is added -/

variable {env : Env} {libs : Libraries} {w : Work} {s : LibraryState} {e : Elf} {cache : ElfCache}
  {p q f : Path} {ps done files : List Path} {disabled : Bool}

theorem isPathAdded_enqueueLibrary :
    (w.enqueueLibrary env p).isPathAdded q ↔ w.isPathAdded q ∨ q = p ∧ env.excluded q = false := by
  unfold Work.enqueueLibrary
  split
  · next hadded =>
    refine ⟨.inl, ?_⟩
    rintro (h | ⟨rfl, -⟩)
    · exact h
    · exact hadded
  · next hnot =>
    have hparts : w.isPathQueued p = false ∧ w.inTree p = false := by
      simpa [Work.isPathAdded, and_comm] using hnot
    unfold Work.enqueueItem
    cases hex : env.excluded p
    · simp only [hparts.1, hparts.2, Bool.false_eq_true, if_false]
      simp only [Work.isPathAdded, Work.inTree, Work.isPathQueued, Work.queue, cons_append,
        any_cons, id, Bool.or_eq_true, decide_eq_true_eq]
      grind
    · simp only [if_true]
      grind

theorem isPathAdded_foldl : (ps.foldl (Work.enqueueLibrary env) w).isPathAdded q ↔
      w.isPathAdded q ∨ q ∈ ps ∧ env.excluded q = false := by
  induction ps generalizing w with
  | nil => simp
  | cons p ps ih =>
    rw [foldl_cons, ih, isPathAdded_enqueueLibrary, mem_cons]
    grind

namespace Libraries

variable (libs : Libraries) (f : Path)

/-- An ELF file with a dynamic section -/
def dynamic? : Option Elf := (libs.elf? f).filter fun e => !e.dynamic.isNone

/-- What `ldd` lists for a file -/
def listed : List Path :=
  ((libs.dynamic? f).map fun e => ((libs.ldd e).filter fun l => isAbsolute l.path).map
    Line.path).getD []

/-- What is enqueued for a file in any case: the interpreter and the libraries of its notes -/
def own : List Path := ((libs.dynamic? f).map fun e => e.interp?.toList ++ e.dlopen).getD []

/-- The entries that are made for a file if `ldd` is asked -/
def entries : List (CacheKey × Path) :=
  ((libs.dynamic? f).map fun e =>
    if e.hasRpath then [] else ((libs.ldd e).filter fun l => isAbsolute l.path).filterMap
      e.pending).getD []

/-- The file is served from a cache that has these keys. -/
def canServe (has : CacheKey → Bool) : Bool :=
  (libs.dynamic? f).any fun e => !e.hasRpath && e.needed.all fun n =>
    has ⟨e.elfClass, e.elfMachine, n⟩

/-- The file is served from the cache. -/
def served (cache : ElfCache) : Bool := libs.canServe f fun key => (elfCacheLookup cache key).isSome

end Libraries

theorem enqueueLibraries_eq : enqueueLibraries env libs disabled s f =
    match libs.dynamic? f with
    | none => s
    | some e =>
      let s :=
        if e.allInCache disabled s.cache then
          { s with
            work := (e.needed.filterMap (e.cached s.cache) ++ e.interp?.toList).foldl
              (Work.enqueueLibrary env) s.work }
        else enqueueSharedLibraries env (libs.ldd e) e (!e.hasRpath && !disabled) s
      { s with work := e.dlopen.foldl (Work.enqueueLibrary env) s.work } := by
  unfold enqueueLibraries Libraries.dynamic?
  cases libs.elf? f with
  | none => rfl
  | some e => cases hdyn : e.dynamic.isNone <;> simp [Option.filter, hdyn]

/-- What the cache holds has been added. -/
def LibraryState.Kept (env : Env) (s : LibraryState) : Prop :=
  ∀ key p, elfCacheLookup s.cache key = some p → env.excluded p = false → s.work.isPathAdded p

/-- What is found in the cache after some entries were made: the first one of a key stays. -/
theorem elfCacheLookup_foldl {xs : List (CacheKey × Path)} {key : CacheKey} :
    elfCacheLookup (xs.foldl elfCacheInsert cache) key =
      (elfCacheLookup cache key).or (elfCacheLookup xs key) := by
  induction xs generalizing cache with
  | nil => simp [elfCacheLookup]
  | cons x xs ih =>
    rw [foldl_cons, ih, elfCacheInsert]
    by_cases hkey : x.1 = key
    · subst hkey
      split
      · next hsome => rw [Option.or_of_isSome hsome, Option.or_of_isSome hsome]
      · next hnone =>
        rw [Option.not_isSome_iff_eq_none.1 hnone]
        simp [elfCacheLookup]
    · split <;> simp [elfCacheLookup, hkey]

theorem isSome_elfCacheLookup (xs : ElfCache) (key : CacheKey) :
    (elfCacheLookup xs key).isSome = decide (key ∈ xs.map Prod.fst) := by
  induction xs with
  | nil => rfl
  | cons x xs ih =>
    simp only [elfCacheLookup, find?_cons] at ih ⊢
    by_cases hkey : x.1 = key
    · simp [hkey]
    · simp [hkey, Ne.symm hkey, ih]

theorem prefix_load (e : Elf) (fuel : Nat) (lines : List Line) :
    lines <+: libs.load e fuel lines := by
  induction fuel generalizing lines with
  | zero => exact prefix_rfl
  | succ fuel ih =>
    unfold Libraries.load
    split
    · exact prefix_rfl
    · next l _ => exact (prefix_append lines [l]).trans (ih _)

/-- The interpreter is among what `ldd` lists. -/
theorem interp_mem_listed (he : libs.dynamic? f = some e) (h : p ∈ e.interp?) :
    p ∈ libs.listed f := by
  have habs : isAbsolute p := by
    unfold Elf.interp? at h
    split at h <;> cases h
    assumption
  have hline : ⟨none, p⟩ ∈ libs.ldd e :=
    (prefix_load e _ _).subset (mem_map.2 ⟨p, Option.mem_toList.2 h, rfl⟩)
  rw [Libraries.listed, he]
  exact mem_map.2 ⟨_, mem_filter.2 ⟨hline, habs⟩, rfl⟩

theorem mem_listed_of_entries {key : CacheKey} (h : (key, p) ∈ libs.entries f) :
    p ∈ libs.listed f := by
  unfold Libraries.entries at h
  unfold Libraries.listed
  cases he : libs.dynamic? f with
  | none => simp [he] at h
  | some e =>
    rw [he, Option.map_some, Option.getD_some] at h
    split at h
    · cases h
    · obtain ⟨l, hl, hpending⟩ := mem_filterMap.1 h
      obtain ⟨n, -, heq⟩ := Option.map_eq_some_iff.1 hpending
      cases heq
      exact mem_map_of_mem hl

theorem allInCache_eq (he : libs.dynamic? f = some e) (disabled : Bool) (cache : ElfCache) :
    e.allInCache disabled cache = (!disabled && libs.served f cache) := by
  simp only [Libraries.served, Libraries.canServe, he, Elf.allInCache, Elf.cached, Option.any_some]
  cases disabled <;> simp

/-- What is added for a file: in any case its own paths, and what `ldd` lists unless the file is
served from the cache. -/
theorem isPathAdded_enqueueLibraries (libs : Libraries) (disabled : Bool) (f q : Path)
    (hkept : s.Kept env) :
    (enqueueLibraries env libs disabled s f).work.isPathAdded q ↔ s.work.isPathAdded q ∨
      env.excluded q = false ∧
        (q ∈ libs.own f ∨ (!disabled && libs.served f s.cache) = false ∧ q ∈ libs.listed f) := by
  rw [enqueueLibraries_eq]
  cases he : libs.dynamic? f with
  | none => simp [Libraries.own, Libraries.listed, he]
  | some e =>
    have hown : q ∈ libs.own f ↔ q ∈ e.interp?.toList ∨ q ∈ e.dlopen := by simp [Libraries.own, he]
    have hinterp : q ∈ e.interp?.toList → q ∈ libs.listed f :=
      fun h => interp_mem_listed he (Option.mem_toList.1 h)
    rw [← allInCache_eq he]
    simp only [isPathAdded_foldl, hown]
    cases e.allInCache disabled s.cache with
    | true =>
      -- the paths from the cache have been added before
      have hcached :
          q ∈ e.needed.filterMap (e.cached s.cache) → env.excluded q = false →
            s.work.isPathAdded q := by
        intro hq hex
        obtain ⟨n, -, hn⟩ := mem_filterMap.1 hq
        exact hkept _ q hn hex
      simp only [if_true, isPathAdded_foldl, mem_append]
      grind
    | false =>
      have hlisted : q ∈ ((libs.ldd e).filter fun l => isAbsolute l.path).map Line.path ↔
          q ∈ libs.listed f := by
        rw [Libraries.listed, he]
        rfl
      simp only [Bool.false_eq_true, if_false, enqueueSharedLibraries, isPathAdded_foldl, hlisted]
      grind

/-- Entries are made for a file that is not served. -/
theorem cache_enqueueLibraries : (enqueueLibraries env libs disabled s f).cache =
    if disabled || libs.served f s.cache then s.cache
      else (libs.entries f).foldl elfCacheInsert s.cache := by
  rw [enqueueLibraries_eq]
  cases he : libs.dynamic? f with
  | none => simp [Libraries.entries, he]
  | some e =>
    simp only [allInCache_eq he, Libraries.entries, he]
    cases disabled <;> cases libs.served f s.cache <;> cases hrpath : e.hasRpath <;>
      simp [enqueueSharedLibraries, hrpath]

theorem Kept.enqueueLibraries (hkept : s.Kept env) :
    (enqueueLibraries env libs disabled s f).Kept env := by
  intro key p hlookup hex
  rw [isPathAdded_enqueueLibraries libs disabled f p hkept]
  rw [cache_enqueueLibraries] at hlookup
  split at hlookup
  · exact .inl (hkept key p hlookup hex)
  · next hasked =>
    rw [elfCacheLookup_foldl, Option.or_eq_some_iff] at hlookup
    rcases hlookup with hold | ⟨-, hnew⟩
    · exact .inl (hkept key p hold hex)
    · obtain ⟨⟨key', p'⟩, hx, rfl⟩ := Option.map_eq_some_iff.1 hnew
      exact .inr ⟨hex, .inr ⟨by simp_all, mem_listed_of_entries (mem_of_find?_eq_some hx)⟩⟩

theorem enqueueAll_concat : enqueueAll env libs disabled w (done ++ [f]) =
    enqueueLibraries env libs disabled (enqueueAll env libs disabled w done) f := by
  unfold enqueueAll
  rw [foldl_append]
  rfl

theorem kept_enqueueAll (env : Env) (libs : Libraries) (disabled : Bool) (w : Work)
    (files : List Path) : (enqueueAll env libs disabled w files).Kept env := by
  induction files using reverseRecOn with
  | nil => exact fun _ _ h => nomatch h
  | append_singleton files f ih =>
    rw [enqueueAll_concat]
    exact Kept.enqueueLibraries ih

/-! ## How the cache is filled -/

/-- The keys in the cache once a file has been processed -/
def Libraries.fill (libs : Libraries) (keys : List CacheKey) (f : Path) : List CacheKey :=
  if libs.canServe f (· ∈ keys) then keys else keys ++ (libs.entries f).map Prod.fst

/-- The keys in the cache once the files have been processed in this order -/
def Libraries.filled (libs : Libraries) (files : List Path) : List CacheKey :=
  files.foldl libs.fill []

/-- The file is served after these. -/
abbrev Libraries.servedAfter (libs : Libraries) (done : List Path) (f : Path) : Bool :=
  libs.canServe f (· ∈ libs.filled done)

theorem filled_concat : libs.filled (files ++ [f]) = libs.fill (libs.filled files) f := by
  simp [Libraries.filled]

theorem isSome_lookup_enqueueAll (env : Env) (libs : Libraries) (w : Work) (files : List Path)
    (key : CacheKey) :
    (elfCacheLookup (enqueueAll env libs false w files).cache key).isSome =
      decide (key ∈ libs.filled files) := by
  induction files using reverseRecOn generalizing key with
  | nil => simp [enqueueAll, Libraries.filled, elfCacheLookup]
  | append_singleton files f ih =>
    rw [enqueueAll_concat, cache_enqueueLibraries, filled_concat, Libraries.fill, Libraries.served]
    simp only [ih, Bool.false_or]
    split
    · rw [ih]
    · rw [elfCacheLookup_foldl, Option.isSome_or, ih, isSome_elfCacheLookup, ← Bool.decide_or]
      exact decide_eq_decide.2 mem_append.symm

/-- The paths that the files add: their own ones, and what `ldd` lists for those that are not
served. -/
theorem isPathAdded_enqueueAll (files : List Path) :
    (enqueueAll env libs disabled w files).work.isPathAdded q ↔
    w.isPathAdded q ∨ env.excluded q = false ∧ ∃ done f, done ++ [f] <+: files ∧
      (q ∈ libs.own f ∨ (!disabled && libs.servedAfter done f) = false ∧ q ∈ libs.listed f) := by
  induction files using reverseRecOn with
  | nil => simp [enqueueAll]
  | append_singleton files f ih =>
    have hserved : (!disabled && libs.served f (enqueueAll env libs disabled w files).cache) =
        (!disabled && libs.servedAfter files f) := by
      cases disabled
      · simp only [Libraries.served, Libraries.servedAfter, isSome_lookup_enqueueAll]
      · rfl
    rw [enqueueAll_concat,
      isPathAdded_enqueueLibraries libs disabled f q (kept_enqueueAll env libs disabled w files),
      ih, hserved]
    simp only [prefix_concat_iff]
    constructor
    · rintro ((hw | ⟨hex, done, g, hdone, hq⟩) | ⟨hex, hq⟩)
      · exact .inl hw
      · exact .inr ⟨hex, done, g, .inr hdone, hq⟩
      · exact .inr ⟨hex, files, f, .inl rfl, hq⟩
    · rintro (hw | ⟨hex, done, g, heq | hdone, hq⟩)
      · exact .inl (.inl hw)
      · obtain ⟨rfl, hfg⟩ := append_inj' heq rfl
        cases hfg
        exact .inr ⟨hex, hq⟩
      · exact .inl (.inr ⟨hex, done, g, hdone, hq⟩)

theorem canServe_mono {has has' : CacheKey → Bool} (hsub : ∀ key, has key → has' key)
    (h : libs.canServe f has) :
    libs.canServe f has' := by
  obtain ⟨e, he, h⟩ := (Option.any_eq_true _ _).1 h
  refine (Option.any_eq_true _ _).2 ⟨e, he, ?_⟩
  simp only [Bool.and_eq_true, all_eq_true] at h ⊢
  exact ⟨h.1, fun n hn => hsub _ (h.2 n hn)⟩

theorem servedAfter_mono (h : done <+: files) (hserved : libs.servedAfter done f) :
    libs.servedAfter files f := by
  have hsub : libs.filled done ⊆ libs.filled files := by
    induction files using reverseRecOn with
    | nil => rw [prefix_nil.1 h]; exact Subset.refl _
    | append_singleton files f ih =>
      rcases prefix_concat_iff.1 h with rfl | h
      · exact Subset.refl _
      · rw [filled_concat, Libraries.fill]
        refine Subset.trans (ih h) ?_
        split
        · exact Subset.refl _
        · exact subset_append_left ..
  exact canServe_mono (fun key hkey => decide_eq_true (hsub (of_decide_eq_true hkey))) hserved

/-! ## Orders of the files -/

/-- The cache makes no difference for what the files have led to. -/
def Transparent (env : Env) (libs : Libraries) (w : Work) (files : List Path) : Prop :=
  ∀ p, (enqueueAll env libs false w files).work.isPathAdded p ↔
    (enqueueAll env libs true w files).work.isPathAdded p

/-- Some of the files that do not list the path fill the cache with all names that the files need
that list it. -/
def Hidden (libs : Libraries) (files : List Path) (p : Path) : Prop :=
  ∃ first rest, first ++ rest ~ files ∧ (∀ f ∈ first, p ∉ libs.listed f) ∧
    ∀ f ∈ rest, p ∈ libs.listed f → libs.servedAfter first f

/-- All files that list the path are served when their turn comes. -/
def Skips (libs : Libraries) (order : List Path) (p : Path) : Prop :=
  ∀ done f, done ++ [f] <+: order → p ∈ libs.listed f → libs.servedAfter done f

/-- Files that are served change nothing in the cache. -/
theorem Skips.filled_eq {order : List Path} (h : Skips libs order p) :
    libs.filled order = libs.filled (order.filter fun f => !decide (p ∈ libs.listed f)) := by
  induction order using reverseRecOn with
  | nil => rfl
  | append_singleton order f ih =>
    have ih := ih fun done g hg => h done g (hg.trans (prefix_append ..))
    rw [filled_concat, filter_append, filter_singleton]
    by_cases hf : p ∈ libs.listed f
    · simp [Libraries.fill, h order f prefix_rfl hf, hf, ← ih]
    · simp [filled_concat, hf, ih]

theorem Skips.hidden {order : List Path} (h : Skips libs order p) (hperm : order ~ files) :
    Hidden libs files p := by
  refine ⟨_, _,
    (perm_append_comm.trans (filter_append_perm (fun f => decide (p ∈ libs.listed f)) order)).trans
      hperm,
    fun f hf => by simpa using (mem_filter.1 hf).2, fun f hf hp => ?_⟩
  obtain ⟨done, after, rfl⟩ := mem_iff_append.1 (mem_of_mem_filter hf)
  have hdone : done ++ [f] <+: done ++ f :: after := ⟨after, by simp⟩
  have hskips : Skips libs done p := fun x g hx => h x g (hx.trans (prefix_append ..))
  have hserved := h done f hdone hp
  rw [Libraries.servedAfter, hskips.filled_eq] at hserved
  exact servedAfter_mono ⟨_, (filter_append ..).symm⟩ hserved

/-- Those that list the path come last. -/
theorem Hidden.exists_skips (h : Hidden libs files p) :
    ∃ order, order ~ files ∧ Skips libs order p := by
  obtain ⟨first, rest, hperm, hfirst, hrest⟩ := h
  obtain ⟨front, hfront⟩ :
      ∃ front, front = first ++ rest.filter fun f => !decide (p ∈ libs.listed f) := ⟨_, rfl⟩
  have horder : front ++ rest.filter (p ∈ libs.listed ·) ~ files := by
    rw [hfront, append_assoc]
    exact ((perm_append_comm.trans (filter_append_perm _ rest)).append_left first).trans hperm
  refine ⟨_, horder, fun done g hdone hg => ?_⟩
  have hnot : g ∉ front := by
    intro hmem
    rcases mem_append.1 (hfront ▸ hmem) with hmem | hmem
    · exact hfirst g hmem hg
    · simp [hg] at hmem
  have hbefore : front <+: done := by
    rcases prefix_or_prefix_of_prefix hdone (prefix_append front _) with hle | hle
    · exact absurd (hle.subset (by simp)) hnot
    · exact (prefix_concat_iff.1 hle).resolve_left fun heq => hnot (by simp [heq])
  have hmem : g ∈ rest := by
    have hmem := hperm.mem_iff.2 (horder.mem_iff.1 (hdone.subset (by simp : g ∈ done ++ [g])))
    exact (mem_append.1 hmem).resolve_left fun hmem => hfirst g hmem hg
  exact servedAfter_mono ((hfront ▸ prefix_append first _ : first <+: front).trans hbefore)
    (hrest g hmem hg)

/-- In every order of the files the same paths are enqueued with and without the cache, if and only
if no path is hidden that only `ldd` leads to. -/
theorem elfCache_transparent_iff (env : Env) (libs : Libraries) (w : Work) (files : List Path) :
    (∀ order, order ~ files → Transparent env libs w order) ↔
      ∀ f ∈ files, ∀ p ∈ libs.listed f, env.excluded p = false → w.isPathAdded p = false →
        (∀ g ∈ files, p ∉ libs.own g) → ¬Hidden libs files p := by
  constructor
  · intro htransparent f hf p hp hex hw hown hhidden
    obtain ⟨order, horder, hskips⟩ := hhidden.exists_skips
    have hoff : (enqueueAll env libs true w order).work.isPathAdded p = true := by
      obtain ⟨done, after, hmem⟩ := mem_iff_append.1 (horder.mem_iff.2 hf)
      exact (isPathAdded_enqueueAll order).2
        (.inr ⟨hex, done, f, ⟨after, by simp [hmem]⟩, .inr ⟨by simp, hp⟩⟩)
    rcases (isPathAdded_enqueueAll order).1 ((htransparent order horder p).2 hoff) with hadded |
      ⟨-, done, g, hdone, hq | ⟨hasked, hlisted⟩⟩
    · cases hw.symm.trans hadded
    · exact hown g (horder.mem_iff.1 (hdone.subset (by simp))) hq
    · simp [hskips done g hdone hlisted] at hasked
  · intro hcond order horder p
    constructor
    · rw [isPathAdded_enqueueAll, isPathAdded_enqueueAll]
      rintro (hw | ⟨hex, done, f, hdone, hq⟩)
      · exact .inl hw
      · exact .inr ⟨hex, done, f, hdone, hq.imp_right fun hq => ⟨by simp, hq.2⟩⟩
    · intro hoff
      by_contra hon
      rw [isPathAdded_enqueueAll, not_or] at hon
      obtain ⟨hw, hon⟩ := hon
      obtain ⟨hex, done, f, hdone, hq⟩ := ((isPathAdded_enqueueAll order).1 hoff).resolve_left hw
      have hnone {done g} (hg : done ++ [g] <+: order) :=
        not_or.1 fun hq => hon ⟨hex, done, g, hg, hq⟩
      have hskips : Skips libs order p := fun done g hg hp => by_contra fun hasked =>
        (hnone hg).2 ⟨by simpa using hasked, hp⟩
      have hmem {g : Path} (hg : g ∈ order) : p ∉ libs.own g := by
        obtain ⟨x, after, rfl⟩ := mem_iff_append.1 hg
        have hx : x ++ [g] <+: x ++ g :: after := ⟨after, by simp⟩
        exact (hnone hx).1
      have hf : f ∈ order := hdone.subset (by simp)
      have hp : p ∈ libs.listed f := (hq.resolve_left (hmem hf)).2
      exact hcond f (horder.mem_iff.1 hf) p hp hex (by simpa using hw)
        (fun g hg => hmem (horder.mem_iff.2 hg)) (hskips.hidden horder)

/-! ## A library with an RPATH -/

/-- An ELF file for x86-64 with these entries in its dynamic section. -/
def sampleElf (dynamic : List Dyn) : Elf :=
  ⟨2, 62, [[]], some dynamic, []⟩

/-- The programs `/a`, which needs `y`, and `/c`, which needs `z`. There are two libraries `z`: the
one in `/o` is for `/l/y`, which has an RPATH. -/
def rpathLibraries : Libraries where
  objects :=
    [([[], [97]], sampleElf [.needed (some [121])]), ([[], [99]], sampleElf [.needed (some [122])]),
      ([[], [108], [121]], sampleElf [.rpath [[[], [111]]], .needed (some [122])]),
      ([[], [108], [122]], sampleElf []),
      ([[], [111], [122]], sampleElf [])]
  defaultDirs := [[[], [108]]]

def plainEnv : Env where
  removePrefix := none
  excluded _ := false
  force := false
  dest _ := .absent
  lstat _ := none
  readlink _ := none
  canonicalize _ := none
  walk _ := []
  deps _ := none

/-- `/c` gets `/o/z` from the cache and `/l/z` is not enqueued; all files that are enqueued are
processed. -/
theorem not_elfCache_transparent : ¬Transparent plainEnv rpathLibraries ⟨[], [], [], 0⟩
      [[[], [97]], [[], [99]], [[], [108], [121]], [[], [111], [122]]] := by
  intro h
  have hwith : (enqueueAll plainEnv rpathLibraries false ⟨[], [], [], 0⟩
      [[[], [97]], [[], [99]], [[], [108], [121]], [[], [111], [122]]]).work.isPathAdded
        [[], [108], [122]] = false := by decide +kernel
  have hwithout : (enqueueAll plainEnv rpathLibraries true ⟨[], [], [], 0⟩
      [[[], [97]], [[], [99]], [[], [108], [121]], [[], [111], [122]]]).work.isPathAdded
        [[], [108], [122]] = true := by decide +kernel
  exact Bool.false_ne_true (hwith.symm.trans ((h _).2 hwithout))

end MakeInitrd.Put
