import MakeInitrd.Pipeline.Handler

/-!
# Which images the pipeline verifies

The scripts `getimage` and `mountfs` mount an image. Where the step is named in `PIPE_VERIFY_SIGN`
they have `gpg` verify the image first (`pipe_gpg_verify`), and a refused image stops the pipeline.
`getimage` does so for the image of a `file://` source only: what it downloads is mounted as it is.
The image is opened again by `cp` or `mount`, so what was verified is what is mounted only if nobody
has changed it in between.
-/

namespace MakeInitrd.Pipeline

open CMem Decimal Glob Words

/-! ## The scripts -/

/-- The variables of the shell; one that is not set is empty. -/
abbrev Vars := Bytes → Bytes

inductive Node where
  | file (contents : Bytes)
  | device (contents : Bytes)
  | dir
  deriving DecidableEq

def Node.contents : Node → Option Bytes
  | .file c => some c
  | .device c => some c
  | .dir => none

/-- What a script finds, and what the programs it calls answer. -/
structure World where
  /-- What a path leads to when the script and `gpg` look at it. -/
  node : Bytes → Option Node
  /-- What it leads to when `cp` or `mount` opens it afterwards. -/
  again : Bytes → Option Node
  /-- `type -P gpg` finds the program. -/
  gpg : Bool
  /-- `gpg --verify` accepts a signature for a contents. -/
  signed : Bytes → Bytes → Bool
  /-- What the attempt with a number leaves in the file it writes, if anything, and whether `wget`
  succeeds. -/
  wget : Nat → Option Bytes × Bool
  /-- `cp` of a file that can be read succeeds. -/
  cp : Bool
  /-- The last name a pattern expands to: `printf '%s\n' $target | sort -V | tail -1` -/
  lastver : Bytes → Bytes
  /-- The exit code of `mount` for what there is. -/
  mount : Node → Nat

/-- What is recorded of a run of a script. -/
inductive Act where
  | verified (contents : Bytes)
  | refused
  | mounted (n : Node)
  deriving DecidableEq

structure Run where
  log : List Act
  rc : Nat
  deriving DecidableEq

/-- `pipe_gpg_verify`, with whether it returns; it is the end of the script if it does not. -/
def pipeGpgVerify (v : Vars) (w : World) (stepname signfile datafile : Bytes) : List Act × Bool :=
  if !inCommaList stepname (v (text "PIPE_VERIFY_SIGN")) then ([], true)
  else if !w.gpg then ([.refused], false)
  else
    match w.node signfile, (w.node datafile).bind Node.contents with
    | some (.file sign), some data =>
      if w.signed sign data then ([.verified data], true) else ([.refused], false)
    | _, _ => ([.refused], false)

/-- `run mount … "$destdir"`; there is no mount of what does not exist. -/
def runMount (w : World) (acts : List Act) : Option Node → Run
  | none => ⟨acts, 32⟩
  | some n => ⟨if w.mount n = 0 then acts ++ [.mounted n] else acts, w.mount n⟩

/-- The loop around `wget`, with what is in `"$datadir/image"`. -/
def download (w : World) : Nat → Nat → Option Node → Option Node
  | 0, _, image => image
  | left + 1, n, image =>
    let image := ((w.wget n).1.map Node.file).or image
    if (w.wget n).2 then image else download w left (n + 1) image

/-- The script `getimage` -/
def getimage (v : Vars) (w : World) (callnum : Nat) (datadir : Bytes) : Run :=
  if v (text "GETIMAGE") = [] then ⟨[], 1⟩
  else
    let url := v (text "GETIMAGE" ++ digits callnum)
    if hashHash (parse (text "file://*")) url ≠ [] then
      runMount w [] (download w 5 0 (w.node (datadir ++ text "/image")))
    else
      let target := hash (parse (text "file://")) url
      match pipeGpgVerify v w (text "getimage") (target ++ text ".asc") target with
      | (acts, false) => ⟨acts, pipeRetcodeStop⟩
      | (acts, true) =>
        match (w.again target).bind Node.contents with
        | none => ⟨acts, 1⟩
        | some c => if w.cp then runMount w acts (some (.file c)) else ⟨acts, 1⟩

/-- `resolve_target`; what cannot be resolved is empty. -/
def resolveTarget (prevdir target : Bytes) : Bytes :=
  let first := percentPercent (parse (text "/*")) target
  if first = [] then target
  else if isMatch (parse (text "pipe[0-9]")) first ∨ isMatch (parse (text "pipe[0-9][0-9]")) first ∨
      isMatch (parse (text "pipe[0-9][0-9][0-9]")) first then
    mntdir ++ (text "/dst/" ++ target)
  else if prevdir = [] then []
  else prevdir ++ (text "/" ++ hash (parse (text "/")) target)

/-- The end of `mountfs`: the mount of what the parameter stands for. -/
def mountTarget (v : Vars) (w : World) (target : Bytes) : Run :=
  match w.node target with
  | some (.device _) => runMount w [] (w.again target)
  | _ =>
    match pipeGpgVerify v w (text "mountfs") (target ++ text ".asc") target with
    | (acts, false) => ⟨acts, pipeRetcodeStop⟩
    | (acts, true) => runMount w acts (w.again target)

/-- What the parameter of `mountfs` stands for; empty where it cannot be resolved. -/
def mountfsTarget (w : World) (param prevdir : Bytes) : Bytes :=
  let lastver := isMatch (parse (text "lastver:*")) param
  let target := resolveTarget prevdir
    (if lastver then hash (parse (text "lastver:")) param else param)
  if lastver ∧ target ≠ [] then w.lastver target else target

/-- The script `mountfs` -/
def mountfs (v : Vars) (w : World) (callnum : Nat) (prevdir : Bytes) : Run :=
  if v (text "MOUNTFS") = [] then ⟨[], 1⟩
  else
    let param := v (text "MOUNTFS" ++ digits callnum)
    let target := mountfsTarget w param prevdir
    if target = [] ∨ (isMatch (parse (text "lastver:*")) param ∧ w.node target = none) then ⟨[], 1⟩
    else mountTarget v w target

/-- The run of the script of the step with the number `k`, for the two scripts that mount images. -/
def stepRun (v : Vars) (w : World) (prevnum : Option Nat) (k : Nat) : Option Run :=
  (pipeCallnum (v (text "PIPELINE")) k).bind fun callnum =>
    let name := pipeName (v (text "PIPELINE")) k
    if name = text "getimage" then some (getimage v w callnum (datadir k))
    else if name = text "mountfs" then some (mountfs v w callnum (prevdir prevnum))
    else none

/-- What the handler does when the script exits with `rc`. -/
def afterRun (v : Vars) (prevnum : Option Nat) (k rc : Nat) : Outcome :=
  handlerStep ⟨v (text "PIPELINE"), fun _ => true⟩ prevnum k ⟨true, true, false, true, true, rc⟩

/-! ## Verified images -/

/-- An image file is mounted only after its contents were verified. A refused image is not mounted
and stops the pipeline, and where nothing is mounted there is no next step. -/
structure Sound (v : Vars) (prevnum : Option Nat) (k : Nat) (r : Run) : Prop where
  checked : Log.Justified (fun pre a => ∀ c, a = .mounted (.file c) → .verified c ∈ pre) r.log
  stopped : .refused ∈ r.log →
    (∀ n, .mounted n ∉ r.log) ∧ (afterRun v prevnum k r.rc).ok = true ∧
      (afterRun v prevnum k r.rc).post = none
  halted : (∀ n, .mounted n ∉ r.log) → (afterRun v prevnum k r.rc).post = none

/-- Nobody changes these files between the two looks. -/
def World.Keeps (w : World) (kept : Bytes → Prop) : Prop := ∀ p, kept p → w.again p = w.node p

/-- Every run of a step that is named in `PIPE_VERIFY_SIGN` is sound, as long as some files are
kept. -/
def Verified (v : Vars) (kept : Bytes → Prop) : Prop :=
  ∀ w prevnum k r, w.Keeps kept → stepRun v w prevnum k = some r →
    inCommaList (pipeName (v (text "PIPELINE")) k) (v (text "PIPE_VERIFY_SIGN")) = true →
      Sound v prevnum k r

/-- The element `k` of the pipeline is the call `callnum` of a step that is named in
`PIPE_VERIFY_SIGN` and has a parameter. -/
structure Signs (v : Vars) (name param : Bytes) (k callnum : Nat) : Prop where
  listed : inCommaList name (v (text "PIPE_VERIFY_SIGN")) = true
  param : v param ≠ []
  name : pipeName (v (text "PIPELINE")) k = name
  call : pipeCallnum (v (text "PIPELINE")) k = some callnum

def LocalSources (v : Vars) : Prop :=
  ∀ k callnum, Signs v (text "getimage") (text "GETIMAGE") k callnum →
    v (text "GETIMAGE" ++ digits callnum) = [] ∨ text "file://" <+:
      v (text "GETIMAGE" ++ digits callnum)

/-- The images that may be verified. A pattern may expand to any name. -/
inductive Image (v : Vars) : Bytes → Prop
  | getimage {k callnum : Nat} : Signs v (text "getimage") (text "GETIMAGE") k callnum →
      Image v (hash (parse (text "file://")) (v (text "GETIMAGE" ++ digits callnum)))
  | mountfs {k callnum : Nat} (w : World) (prevnum : Option Nat) :
      Signs v (text "mountfs") (text "MOUNTFS") k callnum →
      mountfsTarget w (v (text "MOUNTFS" ++ digits callnum)) (prevdir prevnum) ≠ [] →
      Image v (mountfsTarget w (v (text "MOUNTFS" ++ digits callnum)) (prevdir prevnum))

variable {v : Vars} {w : World} {prevnum : Option Nat} {k callnum rc : Nat} {acts : List Act}
    {n : Option Node}

theorem afterRun_post (h : rc ≠ 0) : (afterRun v prevnum k rc).post = none := by
  rcases pipeName_cases (v (text "PIPELINE")) k with hnil | ⟨name, hname, hne, -⟩
  · rw [afterRun, handlerStep_of_pipeName_nil hnil]
  · rw [afterRun, handlerStep_of_name hname hne]
    simp only [Bool.not_true, Bool.false_eq_true, if_false, if_neg h]
    split_ifs <;> rfl

theorem afterRun_stop : (afterRun v prevnum k pipeRetcodeStop).ok = true := by
  rcases pipeName_cases (v (text "PIPELINE")) k with hnil | ⟨name, hname, hne, -⟩
  · rw [afterRun, handlerStep_of_pipeName_nil hnil]
  · rw [afterRun, handlerStep_of_name hname hne]
    rfl

theorem Sound.of_not_mounted (hrc : rc ≠ 0) (hmounted : ∀ n, .mounted n ∉ acts)
    (hrefused : .refused ∈ acts → rc = pipeRetcodeStop) : Sound v prevnum k ⟨acts, rc⟩ where
  checked := Log.justified_of_mem fun _ _ ha _ hc => absurd (hc ▸ ha) (hmounted _)
  stopped h := by
    obtain rfl := hrefused h
    exact ⟨hmounted, afterRun_stop, afterRun_post hrc⟩
  halted _ := afterRun_post hrc

theorem Sound.runMount (hmounted : ∀ n, .mounted n ∉ acts) (hrefused : .refused ∉ acts)
    (hn : ∀ c, n = some (.file c) → .verified c ∈ acts) :
    Sound v prevnum k (runMount w acts n) := by
  cases n with
  | none => exact .of_not_mounted (by decide) hmounted fun h => absurd h hrefused
  | some n =>
    by_cases hrc : w.mount n = 0
    · rw [Pipeline.runMount, if_pos hrc]
      constructor
      · refine Log.justified_concat.2 ⟨Log.justified_of_mem fun _ _ ha _ hc =>
          absurd (hc ▸ ha) (hmounted _), ?_⟩
        intro c hc
        obtain rfl := Act.mounted.inj hc
        exact hn c rfl
      · intro h
        simp [hrefused] at h
      · intro h
        exact absurd (List.mem_concat_self) (h n)
    · rw [Pipeline.runMount, if_neg hrc]
      exact .of_not_mounted hrc hmounted fun h => absurd h hrefused

/-- Where the step is named in `PIPE_VERIFY_SIGN`, the contents of the file were verified, or the
script is over. -/
theorem pipeGpgVerify_spec {stepname : Bytes} (signfile datafile : Bytes)
    (h : inCommaList stepname (v (text "PIPE_VERIFY_SIGN")) = true) :
    (∃ c, (w.node datafile).bind Node.contents = some c ∧
      pipeGpgVerify v w stepname signfile datafile = ([.verified c], true)) ∨
    pipeGpgVerify v w stepname signfile datafile = ([.refused], false) := by
  rw [pipeGpgVerify]
  simp only [h, Bool.not_true, Bool.false_eq_true, if_false]
  split_ifs with hgpg
  · exact Or.inr rfl
  · split
    · next sign data hsign hdata =>
      split_ifs
      · exact Or.inl ⟨data, hdata, rfl⟩
      · exact Or.inr rfl
    · exact Or.inr rfl

theorem Sound.refused : Sound v prevnum k ⟨[.refused], pipeRetcodeStop⟩ :=
  .of_not_mounted (by decide) (by simp) fun _ => rfl

theorem Sound.failed : Sound v prevnum k ⟨[], 1⟩ :=
  .of_not_mounted (by decide) (by simp) (by simp)

theorem mountTarget_sound (h : inCommaList (text "mountfs") (v (text "PIPE_VERIFY_SIGN")) = true)
    {target : Bytes}
    (hkept : w.again target = w.node target) : Sound v prevnum k (mountTarget v w target) := by
  rw [mountTarget, hkept]
  split
  · next heq => exact .runMount (by simp) (by simp) (by simp [heq])
  · rcases pipeGpgVerify_spec (target ++ text ".asc") target h with ⟨c, hc, heq⟩ | heq
    · rw [heq]
      refine .runMount (by simp) (by simp) fun c' hc' => ?_
      obtain rfl : c' = c := by simpa [hc', Node.contents] using hc
      simp
    · rw [heq]
      exact .refused

theorem hashHash_file {url : Bytes} :
    hashHash (parse (text "file://*")) url = [] ↔ url = [] ∨ text "file://" <+: url := by
  by_cases hnil : url = []
  · subst hnil
    exact iff_of_true (by decide) (Or.inl rfl)
  · have hparse : parse (text "file://*") = (text "file://").map .lit ++ [.star] := by
      rw [show text "file://*" = text "file://" ++ [42] from rfl,
        parse_plain (List.all_eq_true.1 (by decide))]
      rfl
    rw [hashHash_eq_nil _ hnil, hparse, isMatch_lits]
    simp only [isMatch_star, isMatch_nil, hnil, false_or]
    constructor
    · rintro ⟨rest, rfl, -⟩
      exact ⟨rest, rfl⟩
    · rintro ⟨rest, rfl⟩
      exact ⟨rest, rfl, rest, [], by simp, rfl⟩

theorem getimage_sound (h : inCommaList (text "getimage") (v (text "PIPE_VERIFY_SIGN")) = true)
    (dir : Bytes)
    (hurl : hashHash (parse (text "file://*")) (v (text "GETIMAGE" ++ digits callnum)) = [])
    {target : Bytes}
    (htarget : hash (parse (text "file://")) (v (text "GETIMAGE" ++ digits callnum)) = target)
    (hkept : w.again target = w.node target) : Sound v prevnum k (getimage v w callnum dir) := by
  rw [getimage]
  split
  · exact .failed
  · simp only [hurl, ne_eq, not_true_eq_false, if_false, htarget, hkept]
    rcases pipeGpgVerify_spec (w := w) (target ++ text ".asc") target h with ⟨c, hc, heq⟩ | heq
    · rw [heq]
      simp only [hc]
      split_ifs
      · refine .runMount (by simp) (by simp) fun c' hc' => ?_
        obtain rfl : c' = c := by simpa using hc'.symm
        simp
      · exact .of_not_mounted (by decide) (by simp) (by simp)
    · rw [heq]
      exact .refused

/-- `gpg` accepts empty files, and every path leads to one. The download succeeds at once and is not
empty. -/
def lax (again : Bytes → Option Node) (lastver : Bytes → Bytes) : World where
  node _ := some (.file [])
  again := again
  gpg := true
  signed _ data := data = []
  wget _ := (some [0], true)
  cp := true
  lastver := lastver
  mount _ := 0

/-- Only the file `p` is not empty when it is opened again. -/
def changed (p q : Bytes) : Option Node := some (.file (if q = p then [0] else []))

theorem changed_keeps {p : Bytes} {kept : Bytes → Prop} (hp : ¬kept p) (lastver : Bytes → Bytes) :
    (lax (changed p) lastver).Keeps kept := by
  intro q hq
  have hne : q ≠ p := fun h => hp (h ▸ hq)
  simp [lax, changed, hne]

theorem pipeGpgVerify_lax {name : Bytes} (h : inCommaList name (v (text "PIPE_VERIFY_SIGN")) = true)
    (again : Bytes → Option Node) (lastver : Bytes → Bytes) (signfile datafile : Bytes) :
    pipeGpgVerify v (lax again lastver) name signfile datafile = ([.verified []], true) := by
  simp [pipeGpgVerify, h, lax, Node.contents]

theorem not_sound_of_mounted (hverified : .verified [0] ∉ acts) :
    ¬Sound v prevnum k ⟨acts ++ [.mounted (.file [0])], rc⟩ :=
  fun h => hverified (h.checked acts _ [] rfl [0] rfl)

theorem Verified.getimage {kept : Bytes → Prop} (hv : Verified v kept)
    (h : Signs v (text "getimage") (text "GETIMAGE") k callnum) (hkeeps : w.Keeps kept) :
    Sound v none k (getimage v w callnum (datadir k)) :=
  hv w none k _ hkeeps (by simp [stepRun, h.call, h.name]) (h.name ▸ h.listed)

theorem Verified.mountfs {kept : Bytes → Prop} (hv : Verified v kept)
    (h : Signs v (text "mountfs") (text "MOUNTFS") k callnum) (hkeeps : w.Keeps kept) :
    Sound v prevnum k (mountfs v w callnum (prevdir prevnum)) :=
  hv w prevnum k _ hkeeps
    (by simp [stepRun, h.call, h.name, show text "mountfs" ≠ text "getimage" by decide])
    (h.name ▸ h.listed)

theorem Verified.localSources {kept : Bytes → Prop} (hv : Verified v kept) : LocalSources v := by
  intro k callnum h
  rw [← hashHash_file]
  by_contra hurl
  have hsound := hv.getimage (w := lax (fun _ => some (.file [])) id) h fun _ _ => rfl
  rw [Pipeline.getimage, if_neg h.param] at hsound
  simp only [ne_eq, hurl, not_false_eq_true, if_true] at hsound
  exact @not_sound_of_mounted _ _ _ _ [] (by simp) hsound

theorem Verified.kept {kept : Bytes → Prop} (hv : Verified v kept) {p : Bytes} (hp : Image v p) :
    kept p := by
  by_contra hnot
  cases hp with
  | getimage h =>
    have hsound := hv.getimage h (changed_keeps hnot id)
    rw [Pipeline.getimage, if_neg h.param] at hsound
    simp only [hashHash_file.2 (hv.localSources _ _ h), ne_eq, not_true_eq_false, if_false,
      pipeGpgVerify_lax h.listed] at hsound
    simp only [lax, changed, Node.contents, Option.bind_some, if_true] at hsound
    exact not_sound_of_mounted (by simp) hsound
  | mountfs w prevnum h hne =>
    have hsound : Sound v prevnum _ _ := hv.mountfs h (changed_keeps hnot w.lastver)
    generalize htarget : mountfsTarget w _ _ = p at hsound hne
    -- the pattern expands in this world as in the other one
    have hsame (again : Bytes → Option Node) : mountfsTarget (lax again w.lastver) _ _ = p :=
      htarget
    rw [Pipeline.mountfs, if_neg h.param] at hsound
    simp only [hsame, hne, mountTarget, pipeGpgVerify_lax h.listed] at hsound
    simp only [lax, changed, reduceCtorEq, and_false, or_self, if_false, if_true] at hsound
    exact not_sound_of_mounted (by simp) hsound

/-- The images of the steps named in `PIPE_VERIFY_SIGN` are verified exactly where the sources of
`getimage` are local files and the images are kept between the look of `gpg` and the mount. -/
theorem verified_iff (v : Vars) (kept : Bytes → Prop) :
    Verified v kept ↔ LocalSources v ∧ ∀ p, Image v p → kept p := by
  constructor
  · exact fun hv => ⟨hv.localSources, fun _ => hv.kept⟩
  · rintro ⟨hlocal, himage⟩ w prevnum k r hkeeps hrun hin
    obtain ⟨callnum, hcall, hrun⟩ := Option.bind_eq_some_iff.1 hrun
    simp only at hrun
    split_ifs at hrun with hget hmount
    · cases hrun
      by_cases hparam : v (text "GETIMAGE") = []
      · rw [getimage, if_pos hparam]
        exact .failed
      have hsigns : Signs v (text "getimage") (text "GETIMAGE") k callnum :=
        ⟨hget ▸ hin, hparam, hget, hcall⟩
      exact getimage_sound hsigns.listed _ (hashHash_file.2 (hlocal k callnum hsigns)) rfl
        (hkeeps _ (himage _ (.getimage hsigns)))
    · cases hrun
      rw [mountfs]
      split
      · exact .failed
      · next hparam =>
        have hsigns : Signs v (text "mountfs") (text "MOUNTFS") k callnum :=
          ⟨hmount ▸ hin, hparam, hmount, hcall⟩
        simp only
        split
        · exact .failed
        · next htarget =>
          exact mountTarget_sound hsigns.listed
            (hkeeps _ (himage _ (.mountfs w prevnum hsigns (not_or.1 htarget).1)))

/-- The variables of a boot from the network with `pipe-verify-sign=getimage`. -/
def remoteVars : Vars := fun name =>
  if name = text "PIPELINE" then text "getimage,rootfs"
  else if name = text "PIPE_VERIFY_SIGN" then text "getimage"
  else if name = text "GETIMAGE" then text "1"
  else if name = text "GETIMAGE0" then text "http://host/image"
  else []

/-- The download succeeds at once, and `gpg` would accept nothing. -/
def remoteWorld : World where
  node _ := none
  again _ := none
  gpg := true
  signed _ _ := false
  wget _ := (some (text "image"), true)
  cp := true
  lastver := id
  mount _ := 0

/-- `getimage` mounts what it has downloaded, and the pipeline goes on to the next step. No file
needs to change. -/
theorem not_verified :
    stepRun remoteVars remoteWorld none 0 = some ⟨[.mounted (.file (text "image"))], 0⟩ ∧
      (afterRun remoteVars none 0 0).post = some (.step (some 0) 1) ∧
      ¬Verified remoteVars fun _ => True := by
  have hrun :
      stepRun remoteVars remoteWorld none 0 = some ⟨[.mounted (.file (text "image"))], 0⟩ := by
        decide +kernel
  refine ⟨hrun, by decide +kernel, fun h => ?_⟩
  have hchecked := (h remoteWorld none 0 _ (fun _ _ => rfl) hrun (by decide +kernel)).checked [] _
    [] rfl
    (text "image") rfl
  simp at hchecked

end MakeInitrd.Pipeline
