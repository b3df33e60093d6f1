import Fathom.Proofs.Stat
import Fathom.Proofs.Script

/-!
# Running a file and opening it

`execve` and `openat` both come to `ResolveGuestPathOnHost`, one straight from
`ExecProcess`, the other by way of `ResolveAt`. The second has the path collapsed before
it is walked, which tells where a `..` follows a link.
-/

namespace Fathom

open Lib.Namei StatProcess PathContext HostFiles

/-- A name under `/proc`, as it is or once it is collapsed. -/
def PathContext.ProcName (s : PathContext) (path : List Char) : Prop :=
  "/proc/".toList <+: path ∨ "/proc/".toList <+: s.collapsedPath path

def madeNames : List (List Char) :=
  ["/dev/fb0".toList, "/dev/graphics/fb0".toList, "/etc/mtab".toList]

/-! ## What is opened where no link is -/

structure Clear (find : Path → Option Entry) (parts : List Name) : Prop where
  names : ∀ c ∈ parts, IsName c
  links : ∀ q, q ≠ [] → q <+: parts → ∀ target, find q ≠ some (.link target)

namespace HostFiles

variable {k : HostFiles} {root : List Char} {top : Path}

theorem find_top (hroot : k.namei false root = .at top (some .dir)) :
    k.tree.find top = some .dir := by
  unfold namei at hroot
  split at hroot
  · cases hroot
  · exact (walk_entry hroot).symm

theorem plain_of_below {parts : List Name} {entry : Entry}
    (h : k.below top parts = some entry) : Plain (k.below top) parts := by
  refine ⟨fun c hc => k.tree.find_names h c (List.mem_append_right _ hc), fun q _ hq hne => ?_⟩
  exact k.tree.find_above (List.prefix_append_right_inj top |>.mpr hq)
    (fun heq => hne (List.append_cancel_left heq)) h

theorem namei_clear (hroot : k.namei false root = .at top (some .dir)) (nofollow : Bool)
    {parts : List Name} (hne : parts ≠ []) (hnames : ∀ c ∈ parts, IsName c)
    (hclear : ∀ q, q ≠ [] → q <+: followed nofollow parts →
      ∀ target, k.below top q ≠ some (.link target)) : (Plain (k.below top) parts ∧
        k.namei nofollow (join root parts) = .at (top ++ parts) (k.below top parts)) ∨
      (¬ Plain (k.below top) parts ∧ k.below top parts = none ∧
        ∃ code, k.namei nofollow (join root parts) = .error code) := by
  by_cases hplain : Plain (k.below top) parts
  · refine .inl ⟨hplain, namei_plain hroot hne hplain fun target htarget => ?_⟩
    cases nofollow with
    | true => rfl
    | false => exact absurd htarget (hclear parts hne List.prefix_rfl target)
  · have hnone : k.below top parts = none := by
      cases hbelow : k.below top parts with
      | none => rfl
      | some _ => exact absurd (plain_of_below hbelow) hplain
    refine .inr ⟨hplain, hnone, ?_⟩
    have hroot' : root ≠ [] := by
      rintro rfl
      cases hroot
    unfold namei at hroot
    rw [if_neg hroot'] at hroot
    obtain ⟨_, hleft⟩ := walk_through hroot
    rw [namei_join hroot' nofollow hnames, hleft nofollow parts hne]
    exact (walk_clear hnames hclear).resolve_right fun hat => hplain ⟨hnames, hat.2⟩

end HostFiles

namespace HostContents

variable {k : HostContents} {root : List Char} {top : Path}

def openedBelow (k : HostContents) (top : Path) (parts : List Name) : OpenResult :=
  match k.files.below top parts with
  | some .file => if (k.contents (top ++ parts)).isSome then .file (top ++ parts) else .nothing
  | some .dir => .file (top ++ parts)
  | _ => .nothing

theorem openedBelow_cases (k : HostContents) (top : Path) (parts : List Name) :
    k.openedBelow top parts = .file (top ++ parts) ∨ k.openedBelow top parts = .nothing := by
  unfold openedBelow
  split
  · split
    · exact .inl rfl
    · exact .inr rfl
  · exact .inl rfl
  · exact .inr rfl

theorem opened_clear (hroot : k.files.namei false root = .at top (some .dir)) {parts : List Name}
    (h : Clear (k.files.below top) parts) :
    k.opened (join root parts) = k.openedBelow top parts := by
  unfold opened openedBelow
  by_cases hne : parts = []
  · subst hne
    rw [show join root [] = root from rfl, hroot, below, List.append_nil,
      find_top hroot]
  · rcases namei_clear hroot false hne h.names h.links with
      ⟨_, hat⟩ | ⟨_, hnone, _, herr⟩
    · rw [hat]
      cases k.files.below top parts with
      | none => rfl
      | some entry =>
        cases entry with
        | file => rfl
        | dir => rfl
        | link _ => rfl
    · rw [herr, hnone]

theorem openedBelow_eq_iff (parts parts' : List Name) :
    k.openedBelow top parts = k.openedBelow top parts' ↔ parts = parts' ∨
        (k.openedBelow top parts = .nothing ∧ k.openedBelow top parts' = .nothing) := by
  constructor
  · intro h
    rcases k.openedBelow_cases top parts with hfile | hnothing
    · rcases k.openedBelow_cases top parts' with hfile' | hnothing'
      · rw [hfile, hfile'] at h
        exact .inl (List.append_cancel_left (OpenResult.file.inj h))
      · rw [hfile, hnothing'] at h
        cases h
    · rw [hnothing] at h
      exact .inr ⟨hnothing, h.symm⟩
  · rintro (rfl | ⟨hnothing, hnothing'⟩)
    · rfl
    · rw [hnothing, hnothing']

end HostContents

/-! ## The two walks -/

def StatProcess.openPath (p : StatProcess) (k : HostContents) (path : List Char) : List Char :=
  p.paths.resolveGuestPath k.files (p.paths.collapsedPath path) true

/-- The walk of the path as it is handed to `openat`, with the working directory in front
and collapsed, ends at `a`, and the one of the path as an exec takes it at `b`, each within
forty links and with no link left on the way. -/
structure Looked (p : StatProcess) (k : HostContents) (top : Path) (path : List Char)
    (a b : List Name) : Prop where
  root : p.guestRoot ≠ []
  device : p.paths.collapsedPath path ∉ hostDevices
  opened : k.files.Comes p.guestRoot (p.paths.collapsedPath path) true a false
  loaded : k.files.Comes p.guestRoot path true b false
  clear : Clear (k.files.below top) a
  clear' : Clear (k.files.below top) b

/-- When a path is opened and loaded alike. By an empty path nothing is opened, and what
`openat` makes up is never loaded. Below a root, an absolute path with no `..` in it has one
walk only; any other has two, which end at one place, or where nothing can be opened. -/
def OpensAlike (p : StatProcess) (k : HostContents) (top : Path) (path : List Char) : Prop :=
  path ≠ [] ∧ p.paths.collapsedPath path ∉ madeNames ∧
  ((p.guestRoot ≠ [] ∧ p.paths.collapsedPath path ∉ hostDevices ∧ absolute path = true ∧
      ['.', '.'] ∉ components path) ∨ ∃ a b, Looked p k top path a b ∧
      (a = b ∨ (k.openedBelow top a = .nothing ∧ k.openedBelow top b = .nothing)))

def SameFile (p : StatProcess) (m : ProcAnswers) (k : HostContents) (caller : ExecCaller)
    (path : List Char) : Prop :=
  p.doOpenAt m k kAtFdCwd path = k.opened (requested k p.guestRoot caller path)

section Names

variable {p : StatProcess} {m : ProcAnswers} {k : HostContents} {caller : ExecCaller} {top : Path}
  {path : List Char}

theorem binary_of_not_proc (h : ¬ p.paths.ProcName path) : caller.binary path = path := by
  refine if_neg fun hown => h (.inl ?_)
  unfold ExecCaller.isOwnExe at hown
  rw [Bool.or_eq_true, decide_eq_true_iff, decide_eq_true_iff] at hown
  rcases hown with rfl | rfl
  · decide
  · exact List.prefix_append _ _

theorem proc_of_isProcSelfExe {s : PathContext} {name : List Char}
    (h : s.isProcSelfExe name = true) : "/proc/".toList <+: name := by
  unfold isProcSelfExe at h
  rw [Bool.or_eq_true, decide_eq_true_iff, decide_eq_true_iff] at h
  rcases h with rfl | rfl
  · decide
  · exact List.prefix_append _ _

theorem not_exe_of_not_proc (h : ¬ p.paths.ProcName path) :
    ¬ p.paths.StandsForExe kAtFdCwd path := by
  have hrequest : p.paths.atRequest kAtFdCwd path = path := if_neg fun hcond => hcond.2.2 rfl
  unfold StandsForExe
  rw [hrequest]
  rintro ⟨_, hexe | hexe⟩
  · exact h (.inl (proc_of_isProcSelfExe hexe))
  · exact h (.inr (proc_of_isProcSelfExe hexe))

theorem procFileContents_iff {name : List Char} (h : ¬ "/proc/".toList <+: name) :
    (p.procFileContents m name).isSome = true ↔ name = "/etc/mtab".toList := by
  have hnot : ∀ {text : List Char}, "/proc/".toList <+: text → name ≠ text := by
    rintro _ htext rfl
    exact h htext
  have hself : ¬ "/proc/self/".toList <+: name := fun hpre =>
    h ((show "/proc/".toList <+: "/proc/self/".toList by decide).trans hpre)
  have hown : ¬ "/proc/".toList ++ decimal p.pid ++ "/".toList <+: name := fun hpre =>
    h ((List.prefix_append_of_prefix (List.prefix_append _ _)).trans hpre)
  have hsystem : systemFile m name =
      if name = "/etc/mtab".toList then
        some ("/dev/root / ext4 rw,relatime 0 0\nproc /proc proc rw,relatime 0 0\n" ++
          "tmpfs /tmp tmpfs rw,relatime 0 0\n").toList
      else none := by
    unfold systemFile
    rw [if_neg (hnot (by decide)), if_neg (hnot (by decide)),
      if_neg (not_or.mpr ⟨hnot (by decide), hnot (by decide)⟩), if_neg (hnot (by decide)),
      if_neg (not_or.mpr ⟨hnot (by decide), hnot (by decide)⟩), if_neg (hnot (by decide)),
      if_neg (hnot (by decide)), if_neg (hnot (by decide))]
    simp only [hnot (show "/proc/".toList <+: "/proc/mounts".toList by decide), false_or]
  unfold procFileContents
  rw [hsystem]
  by_cases hmtab : name = "/etc/mtab".toList
  · rw [if_pos hmtab]
    exact iff_of_true rfl hmtab
  · rw [if_neg hmtab]
    rw [if_neg hself, if_neg hown, if_neg h]
    exact iff_of_false (by simp) hmtab

theorem opened_ne_made : k.opened path ≠ .made := by
  unfold HostContents.opened
  split
  · split
    · simp
    · simp
  · simp
  · simp

theorem doOpenAt_eq (h : ¬ p.paths.ProcName path) (hne : path ≠ []) : p.doOpenAt m k kAtFdCwd path =
      if p.paths.collapsedPath path ∈ madeNames then .made else k.opened (p.openPath k path) := by
  have hrequest : p.paths.atRequest kAtFdCwd path = path := if_neg fun hcond => hcond.2.2 rfl
  have hnormal := (normalise_of_not_exe (not_exe_of_not_proc h)).1
  rw [hrequest] at hnormal
  have hresolved : p.paths.resolveAt k.files kAtFdCwd path true =
      (p.openPath k path, p.paths.collapsedPath path) := by
    unfold resolveAt
    rw [hrequest, if_neg hne, hnormal]
    rfl
  have hproc : ¬ "/proc/".toList <+: p.paths.collapsedPath path := fun hpre => h (.inr hpre)
  unfold doOpenAt
  rw [hresolved]
  dsimp only
  have hmade := procFileContents_iff (p := p) (m := m) hproc
  generalize p.paths.collapsedPath path = name at hproc hmade ⊢
  have hown : ¬ (name = "/proc/self/fd".toList ∨
      name = "/proc/".toList ++ decimal p.pid ++ "/fd".toList) := by
    rintro (rfl | rfl)
    · exact hproc (by decide)
    · exact hproc (by exact List.prefix_append _ _)
  unfold madeNames
  by_cases hdisplay : name = "/dev/fb0".toList ∨ name = "/dev/graphics/fb0".toList
  · rw [if_pos hdisplay, if_pos]
    rcases hdisplay with rfl | rfl
    · exact List.mem_cons_self
    · exact List.mem_cons_of_mem _ List.mem_cons_self
  rw [if_neg hdisplay]
  by_cases hmtab : name = "/etc/mtab".toList
  · rw [if_pos (hmade.mpr hmtab), if_pos]
    rw [hmtab]
    exact List.mem_cons_of_mem _ (List.mem_cons_of_mem _ List.mem_cons_self)
  · rw [if_neg fun h => hmtab (hmade.mp h), if_neg hown, if_neg]
    simp only [List.mem_cons, List.not_mem_nil, or_false]
    rintro (hname | hname | hname)
    · exact hdisplay (.inl hname)
    · exact hdisplay (.inr hname)
    · exact hmtab hname

theorem openPath_eq (h : ¬ p.paths.ProcName path) (hroot : p.guestRoot ≠ [])
    (hdevice : p.paths.collapsedPath path ∉ hostDevices) : p.openPath k path =
      join p.guestRoot (resolveParts k.files p.guestRoot (p.paths.collapsedPath path) true).parts :=
    by
  have hrequest : p.paths.atRequest kAtFdCwd path = path := if_neg fun hcond => hcond.2.2 rfl
  have hnormal := (normalise_of_not_exe (not_exe_of_not_proc h)).2
  rw [hrequest] at hnormal
  have hne : p.paths.collapsedPath path ≠ [] := by
    intro hnil
    have habs := (p.paths.collapsedPath_spec path).2
    rw [hnil] at habs
    cases habs
  unfold openPath resolveGuestPath
  rw [if_neg hne, hnormal]
  rw [if_neg hdevice, if_neg (show p.paths.guestRoot ≠ [] from hroot)]
  exact resolveGuestPathOnHost_eq hroot _ _

theorem Looked.same_iff (hroot : p.paths.RootAt k.files top) (h : ¬ p.paths.ProcName path)
    {a b : List Name} (hlooked : Looked p k top path a b) : SameFile p m k caller path ↔
    path ≠ [] ∧ p.paths.collapsedPath path ∉ madeNames ∧
    (a = b ∨ (k.openedBelow top a = .nothing ∧ k.openedBelow top b = .nothing)) := by
  have hdir : k.files.namei false p.guestRoot = .at top (some .dir) := by
    unfold RootAt at hroot
    rwa [if_neg (show p.paths.guestRoot ≠ [] from hlooked.root)] at hroot
  obtain ⟨hopened, -⟩ := comes_iff.mp hlooked.opened
  obtain ⟨hloaded, -⟩ := comes_iff.mp hlooked.loaded
  have hload : k.opened (requested k p.guestRoot caller path) = k.openedBelow top b := by
    unfold requested
    rw [binary_of_not_proc h, resolveGuestPathOnHost_eq hlooked.root, hloaded,
      HostContents.opened_clear hdir hlooked.clear']
  unfold SameFile
  rw [hload]
  by_cases hne : path = []
  · -- The walk of the empty path ends at the root, a directory.
    subst hne
    refine iff_of_false (fun heq => ?_) fun hno => hno.1 rfl
    have hself : b = [] := hloaded.symm
    rw [hself, HostContents.openedBelow, below, List.append_nil,
      find_top hdir] at heq
    cases heq
  rw [doOpenAt_eq h hne]
  by_cases hmade : p.paths.collapsedPath path ∈ madeNames
  · rw [if_pos hmade]
    refine iff_of_false (fun heq => ?_) fun hno => hno.2.1 hmade
    rw [← hload] at heq
    exact opened_ne_made heq.symm
  rw [if_neg hmade, openPath_eq h hlooked.root hlooked.device, hopened,
    HostContents.opened_clear hdir hlooked.clear, HostContents.openedBelow_eq_iff]
  exact ⟨fun heq => ⟨hne, hmade, heq⟩, fun hall => hall.2.2⟩

end Names

/-! ## Straight paths -/

def withoutDots (names : List Name) : List Name := names.filter (· ≠ ['.'])

theorem normaliseParts_straight {names : List Name} (h : ['.', '.'] ∉ names) :
    normaliseParts names = withoutDots names := by
  induction names using List.reverseRecOn with
  | nil => rfl
  | append_singleton _ c ih =>
    have hc : c ≠ ['.', '.'] := fun heq => h (heq ▸ by simp)
    rw [normaliseParts_append, ih fun hmem => h (List.mem_append_left _ hmem)]
    unfold withoutDots
    by_cases hdot : c = ['.']
    · simp [hdot]
    · simp [hdot, hc]

section Straight

variable {k : HostFiles} {root : List Char}

theorem resolveTo_withoutDots {onLink onLink' : List Name → List Name → Resolved}
    (hlink : ∀ resolved pending, onLink resolved pending = onLink' resolved (withoutDots pending))
    (pending : List Name) : ∀ resolved, resolveTo k root true onLink resolved pending =
      resolveTo k root true onLink' resolved (withoutDots pending) := by
  induction pending with
  | nil => exact fun resolved => rfl
  | cons part pending ih =>
    intro resolved
    by_cases hdot : part = ['.']
    · have hskip : withoutDots (part :: pending) = withoutDots pending := by
        simp [withoutDots, hdot]
      rw [resolveTo, if_pos hdot, hskip]
      exact ih resolved
    · have hkeep : withoutDots (part :: pending) = part :: withoutDots pending := by
        simp [withoutDots, hdot]
      rw [resolveTo, if_neg hdot, hkeep, resolveTo, if_neg hdot]
      by_cases hdots : part = ['.', '.']
      · rw [if_pos hdots, if_pos hdots]
        exact ih _
      · rw [if_neg hdots, if_neg hdots, if_neg (by simp)]
        split
        · exact hlink _ _
        · exact ih _

theorem resolveLoop_withoutDots (hops : Nat) : ∀ resolved pending,
    resolveLoop k root true hops resolved pending =
      resolveLoop k root true hops resolved (withoutDots pending) := by
  induction hops with
  | zero =>
    intro resolved pending
    have hgive : ∀ resolved pending, (fun resolved _ => ⟨resolved, .gaveUp⟩ :
        List Name → List Name → Resolved) resolved pending =
          (fun resolved _ => ⟨resolved, .gaveUp⟩) resolved (withoutDots pending) :=
      fun _ _ => rfl
    exact resolveTo_withoutDots hgive pending resolved
  | succ _ ih =>
    intro resolved pending
    refine resolveTo_withoutDots (fun resolved pending => ?_) pending resolved
    cases k.readlink (join root resolved) with
    | none => exact ih _ _
    | some target =>
      cases target with
      | nil => exact ih _ _
      | cons c target =>
        dsimp only
        rw [ih _ (split (c :: target) ++ pending),
          ih _ (split (c :: target) ++ withoutDots pending)]
        congr 1
        simp [withoutDots]

end Straight

theorem OpensAlike.same {p : StatProcess} {m : ProcAnswers} {k : HostContents}
    {caller : ExecCaller} {top : Path} {path : List Char} (hroot : p.paths.RootAt k.files top)
    (hproc : ¬ p.paths.ProcName path) (h : OpensAlike p k top path) :
    SameFile p m k caller path := by
  obtain ⟨hne, hmade, ⟨hroot', hdevice, habs, hdots⟩ | ⟨a, b, hlooked, hends⟩⟩ := h
  · have hparts : resolveParts k.files p.guestRoot (p.paths.collapsedPath path) true =
        resolveParts k.files p.guestRoot path true := by
      unfold resolveParts
      rw [resolveLoop_withoutDots _ _ (split path), split_eq_components, split_eq_components,
        (p.paths.collapsedPath_spec path).1, absolutePath_of_absolute habs,
        normaliseParts_straight hdots]
    unfold SameFile requested
    rw [binary_of_not_proc hproc, doOpenAt_eq hproc hne, if_neg hmade,
      openPath_eq hproc hroot' hdevice, resolveGuestPathOnHost_eq hroot', hparts]
  · exact (hlooked.same_iff hroot hproc).mpr ⟨hne, hmade, hends⟩

/-! ## A path, and the interpreters after it -/

/-- A guest at `/g` with two files `x`, one in the directory `/a`, and a link `/l` to
`/a/b`. -/
def twoFiles : HostContents where
  files :=
    { tree :=
        { entries := [([['g']], .dir), ([['g'], ['x']], .file), ([['g'], ['a']], .dir),
            ([['g'], ['a'], ['x']], .file), ([['g'], ['a'], ['b']], .dir),
            ([['g'], ['l']], .link ['/', 'a', '/', 'b'])]
          named := by decide
          once := by decide
          parents := by decide }
      cwd := []
      maxLinks := 32 }
  contents _ := some []

def inA : StatProcess :=
  ⟨['/', 'g'], ['/', 'x'], 1, 0, ['/', 'a'], LinuxSyscalls.newFiles, false, [], []⟩

end Fathom
