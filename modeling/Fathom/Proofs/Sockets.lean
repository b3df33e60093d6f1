import Fathom.Proofs.RootPrefix

/-!
# Addresses and abstract names

An address is translated field by field, so that what the guest gives comes back to it. An
abstract unix name, which Linux keeps in a table of its own, becomes a file of one directory,
with `%` for `/` and as much as a host path holds. Where its resolved path leads is known as
long as no link stands in that directory, and so is when two names are two files of it.
-/

namespace Fathom

open Lib.Namei PathContext

/-- What the guest is told: of a path, what is before its end. -/
def HostAddress.told : HostAddress → HostAddress
  | .unix sunPath => .unix (.holding (sunPath.text.take (kSunPath - 1)))
  | other => other

/-- An address that the guest gives, gets back in a buffer that is long enough and gives again
is the same one. -/
theorem addresses_return (guest : List Char) (spare : Nat) : ((toHostAddress guest).bind fun host =>
        toHostAddress (toGuestAddress host ((guestAddress host).length + spare)).1) =
      (toHostAddress guest).map HostAddress.told := by
  simp only [toGuestAddress, List.take_of_length_le (Nat.le_add_right _ _)]
  cases hhost : toHostAddress guest with
  | none => rfl
  | some host =>
    unfold toHostAddress at hhost
    cases host with
    | inet port addr =>
      have hlen : port.length = 2 ∧ addr.length = 4 := by grind
      simp [hlen, toHostAddress, guestAddress, familyBytes, HostAddress.told, nul, kGuestAfInet]
    | inet6 port flow addr scope =>
      have hlen : port.length = 2 ∧ flow.length = 4 ∧ addr.length = 16 ∧ scope.length = 4 := by
        grind
      simp [hlen, toHostAddress, guestAddress, familyBytes, HostAddress.told, nul, kGuestAfInet,
        kGuestAfInet6, List.drop_append, List.drop_of_length_le]
    | unix sunPath =>
      refine congrArg (some ∘ HostAddress.unix) (Subtype.ext (List.ext_getElem? fun i => ?_))
      change (SunPath.holding ((sunPath.text ++ [nul]).take (kSunPath - 1))).1[i]? = _
      grind [SunPath.holding]

/-! ## Abstract names as files -/

variable (name : List Char)

def abstractAddress (name : List Char) : List Char := familyBytes kGuestAfUnix ++ nul :: name

def abstractName (name : List Char) : Name := (cText (name.take (kSunPath - 2))).map fileChar

/-! ## The path it stands for -/

theorem cText_append_zeros (a : List Char) (n : Nat) :
    cText (a ++ List.replicate n nul) = cText a := by
  induction a with
  | nil => exact cText_replicate n
  | cons c a ih =>
    unfold cText at ih ⊢
    rw [List.cons_append, List.takeWhile_cons, List.takeWhile_cons, ih]

theorem toHostAddress_abstract : toHostAddress (abstractAddress name) =
      some (.unix (.holding (nul :: name.take (kSunPath - 2)))) := rfl

theorem socketPath_abstract : socketPath (.holding (nul :: name.take (kSunPath - 2))) =
      abstractDirectory ++ '/' :: abstractName name := by
  have hbytes : (SunPath.holding (nul :: name.take (kSunPath - 2))).1 =
      nul :: (name.take (kSunPath - 2) ++
        List.replicate (kSunPath - 1 - (name.take (kSunPath - 2)).length) nul) := by
    change ((nul :: name.take (kSunPath - 2)) ++ List.replicate kSunPath nul).take kSunPath = _
    rw [List.cons_append, show kSunPath = (kSunPath - 1) + 1 from rfl, List.take_succ_cons,
      List.take_append, List.take_take, List.take_replicate]
    congr 3
    omega
  unfold socketPath
  rw [hbytes, List.tail_cons, cText_append_zeros]
  rfl

theorem nul_not_mem_abstractName : nul ∉ abstractName name := by
  intro hmem
  obtain ⟨c, hc, heq⟩ := List.mem_map.mp hmem
  unfold fileChar at heq
  split at heq
  · exact absurd heq (by decide)
  · exact nul_not_mem_cText _ (heq ▸ hc)

theorem slash_not_mem_abstractName : '/' ∉ abstractName name := by
  intro hmem
  obtain ⟨c, _, heq⟩ := List.mem_map.mp hmem
  unfold fileChar at heq
  split at heq
  · exact absurd heq (by decide)
  next hne => exact hne heq

/-! ## The directory -/

def tmpName : Name := "tmp".toList

def abstractEntry : Name := ".fathom-abstract".toList

/-- `/tmp/.fathom-abstract` is a directory, with no link in it. `above` is where
`/tmp` leads. -/
structure AbstractDirectory (s : PathContext) (k : HostFiles) (top above : Path) : Prop where
  root : s.RootAt k top
  leads : ∃ n ≤ s.linkLimit k, Leads (k.below top) false n [] [tmpName] above
  dir : k.below top (above ++ [abstractEntry]) = some .dir
  links : ∀ c target, k.below top (above ++ [abstractEntry, c]) ≠ some (.link target)
  noNul : nul ∉ s.guestRoot ∧ ∀ c ∈ above, nul ∉ c

/-- The host finds the path, or makes it, right in the directory. -/
def DirectChild (k : HostFiles) (dir : Path) (path : List Char) : Prop :=
  ∃ c entry, IsName c ∧ k.namei false path = .at (dir ++ [c]) entry

theorem nul_not_mem_join {root : List Char} {parts : List Name} (hroot : nul ∉ root)
    (hparts : ∀ c ∈ parts, nul ∉ c) : nul ∉ join root parts := by
  induction parts using List.reverseRecOn with
  | nil => exact hroot
  | append_singleton _ part ih =>
    rw [join_append]
    have hfirst := ih fun c hc => hparts c (List.mem_append_left _ hc)
    have hlast := hparts part (by simp)
    have hslash : nul ≠ '/' := by decide
    simp only [List.mem_append, List.mem_cons]
    rintro (h | h | h)
    · exact hfirst h
    · exact hslash h
    · exact hlast h

theorem PathContext.nul_not_mem_collapsedPath {s : PathContext} {path : List Char}
    (h : ∀ c ∈ normaliseParts (components (s.absolutePath path)), nul ∉ c) :
    nul ∉ s.collapsedPath path := by
  unfold collapsedPath
  rw [split_eq_components]
  dsimp only
  split
  · decide
  · exact nul_not_mem_join List.not_mem_nil h

section Directory

variable {s : PathContext} {k : HostFiles} {top above : Path}

theorem not_substituted_tmp {path : List Char} {rest : List Name} (habs : absolute path = true)
    (hhead : (components path).head? = some tmpName)
    (hparts : normaliseParts (components path) = tmpName :: rest) : ¬ s.Substituted path := by
  have hcollapsed : (components (s.collapsedPath path)).head? = some tmpName := by
    rw [(s.collapsedPath_spec path).1, absolutePath_of_absolute habs, hparts]
    rfl
  have hexe : ∀ p, s.isProcSelfExe p = true → (components p).head? = some "proc".toList := by
    intro p h
    unfold isProcSelfExe at h
    rw [Bool.or_eq_true, decide_eq_true_iff, decide_eq_true_iff] at h
    rcases h with rfl | rfl
    · decide
    · rfl
  have hdevice : ∀ p ∈ hostDevices, (components p).head? = some "dev".toList := by decide
  rintro (⟨_, h | h⟩ | h)
  · exact absurd (hhead.symm.trans (hexe _ h)) (by decide)
  · exact absurd (hcollapsed.symm.trans (hexe _ h)) (by decide)
  · exact absurd (hcollapsed.symm.trans (hdevice _ h)) (by decide)

def abstractPlace (above : Path) (c : Name) : Path :=
  if c = [] ∨ c = ['.'] then above ++ [abstractEntry]
  else if c = ['.', '.'] then above
  else above ++ [abstractEntry, c]

theorem components_abstract {c : Name} (hslash : '/' ∉ c) :
    components (abstractDirectory ++ '/' :: c) =
      [tmpName, abstractEntry] ++ if c = [] then [] else [c] := by
  have hdir : components abstractDirectory = [tmpName, abstractEntry] := by decide
  rw [components_append, hdir]
  split
  next hnil =>
    rw [hnil]
    rfl
  next hne => rw [components_of_slash hne hslash]

theorem normaliseParts_abstract {c : Name} (hslash : '/' ∉ c) :
    normaliseParts (components (abstractDirectory ++ '/' :: c)) =
      if c = [] ∨ c = ['.'] then [tmpName, abstractEntry]
      else if c = ['.', '.'] then [tmpName]
      else [tmpName, abstractEntry, c] := by
  have hdir : normaliseParts [tmpName, abstractEntry] = [tmpName, abstractEntry] := by decide
  rw [components_abstract hslash]
  by_cases hnil : c = []
  · rw [if_pos hnil, List.append_nil, hdir, if_pos (.inl hnil)]
  · simp only [hnil, false_or]
    rfl

namespace AbstractDirectory

section

variable (hd : AbstractDirectory s k top above)
include hd

theorem find_above : k.below top above = some .dir := by
  have hparent := k.tree.find_dropLast hd.dir
  rw [← List.append_assoc, List.dropLast_concat] at hparent
  exact hparent

theorem leads_name {c : Name} (hslash : '/' ∉ c) :
    ∃ n ≤ s.linkLimit k, Leads (k.below top) false n []
      (normaliseParts (components (abstractDirectory ++ '/' :: c))) (abstractPlace above c) := by
  obtain ⟨n, hn, htmp⟩ := hd.leads
  have hmid : PlainDir (k.below top) above := ⟨htmp.plain (plainDir_nil _), fun _ => hd.find_above⟩
  refine ⟨n, hn, ?_⟩
  rw [normaliseParts_abstract hslash]
  unfold abstractPlace
  split
  · exact @Leads.append _ _ _ _ _ _ _ _ (List.cons_ne_nil abstractEntry [])
      htmp hmid 0 (.down (by decide) hd.dir .here)
  next hfirst =>
    split
    · exact htmp
    next hdots =>
      obtain ⟨hnil, hdot⟩ := not_or.mp hfirst
      have hlast : Leads (k.below top) false 0 (above ++ [abstractEntry]) [c]
          (above ++ [abstractEntry] ++ [c]) := by
        refine .last ⟨hnil, hslash, hdot, hdots⟩ fun target htarget => ?_
        rw [List.append_assoc] at htarget
        exact absurd htarget (hd.links c target)
      rw [List.append_assoc] at hlast
      exact @Leads.append _ _ _ _ _ _ _ _ (List.cons_ne_nil abstractEntry [c])
        htmp hmid 0 (.down (by decide) hd.dir hlast)

theorem mkdir_idle : (k.mkdir (s.resolveGuestPath k abstractDirectory true)).2 = k := by
  obtain ⟨n, hn, hleads⟩ := hd.leads_name List.not_mem_nil
  have hnames := names_collapsed hd.root (by decide)
    (@not_substituted_tmp s abstractDirectory [abstractEntry] (by decide) (by decide) (by decide))
    true hn hleads
  have hfound := hnames.1 (by simp [abstractPlace])
  rw [show k.below top (abstractPlace above []) = some .dir from hd.dir] at hfound
  obtain ⟨_, _, hstop⟩ := HostFiles.namei_present hfound
  unfold HostFiles.mkdir HostFiles.create
  rw [hstop]

theorem names_name (name : List Char) : k.Names top false
        (s.resolveGuestPath k (abstractDirectory ++ '/' :: abstractName name) true)
        (abstractPlace above (abstractName name)) ∧
      nul ∉ s.resolveGuestPath k (abstractDirectory ++ '/' :: abstractName name) true := by
  have hslash := slash_not_mem_abstractName name
  have hnul := nul_not_mem_abstractName name
  generalize abstractName name = c at *
  obtain ⟨n, hn, hleads⟩ := hd.leads_name hslash
  have habs : absolute (abstractDirectory ++ '/' :: c) = true := absolute_append (by decide) _
  have hne : abstractDirectory ++ '/' :: c ≠ [] := by simp
  have hsub : ¬ s.Substituted (abstractDirectory ++ '/' :: c) := by
    have hhead : (components (abstractDirectory ++ '/' :: c)).head? = some tmpName := by rfl
    have hparts := normaliseParts_abstract hslash
    split at hparts
    · exact not_substituted_tmp habs hhead hparts
    · split at hparts
      · exact not_substituted_tmp habs hhead hparts
      · exact not_substituted_tmp habs hhead hparts
  rw [← absolutePath_of_absolute habs] at hleads
  refine ⟨names_collapsed hd.root hne hsub true hn hleads, ?_⟩
  -- Its letters are the root's, the directory's and the name's.
  have hwords : nul ∉ tmpName ∧ nul ∉ abstractEntry := by decide
  rw [resolveGuestPath_eq hne hsub]
  split
  · refine nul_not_mem_collapsedPath fun d hd => ?_
    rw [absolutePath_of_absolute habs, normaliseParts_abstract hslash] at hd
    split at hd
    · simp only [List.mem_cons, List.not_mem_nil, or_false] at hd
      rcases hd with rfl | rfl
      · exact hwords.1
      · exact hwords.2
    · split at hd
      · rw [List.mem_singleton.mp hd]
        exact hwords.1
      · simp only [List.mem_cons, List.not_mem_nil, or_false] at hd
        rcases hd with rfl | rfl | rfl
        · exact hwords.1
        · exact hwords.2
        · exact hnul
  next hroot =>
    have hat := hd.root
    unfold RootAt at hat
    unfold linkLimit at hn
    rw [if_neg hroot] at hat hn
    rw [← (s.collapsedPath_spec _).1, ← split_eq_components] at hleads
    have harrives := @HostFiles.resolveLoop_leads k s.guestRoot true top hat _ _ _ _ hleads _ hn
      (plainDir_nil _)
    rw [HostFiles.resolveGuestPathOnHost_eq hroot]
    refine nul_not_mem_join hd.noNul.1 fun d hmem => ?_
    rw [show (resolveParts k s.guestRoot _ true).parts = _ from harrives.parts] at hmem
    unfold abstractPlace at hmem
    split at hmem
    · simp only [List.mem_append, List.mem_singleton] at hmem
      rcases hmem with hmem | rfl
      · exact hd.noNul.2 d hmem
      · exact hwords.2
    · split at hmem
      · exact hd.noNul.2 d hmem
      · simp only [List.mem_append, List.mem_cons, List.not_mem_nil, or_false] at hmem
        rcases hmem with hmem | rfl | rfl
        · exact hd.noNul.2 d hmem
        · exact hwords.2
        · exact hnul

theorem reaches {name : List Char} {a : SunPath}
    (h : (s.toHostSocketAddress k (abstractAddress name)).1 = some (.unix a)) :
    a.text = s.resolveGuestPath k (abstractDirectory ++ '/' :: abstractName name) true ∧
    ∃ entry, k.namei false a.text = .at (top ++ abstractPlace above (abstractName name)) entry := by
  have hhead : (SunPath.holding (nul :: name.take (kSunPath - 2))).1.head? = some nul := rfl
  obtain ⟨hnames, hnul⟩ := hd.names_name name
  unfold toHostSocketAddress at h
  rw [toHostAddress_abstract] at h
  dsimp only at h
  rw [if_pos hhead, hd.mkdir_idle, socketPath_abstract] at h
  split at h
  · cases h
  next hfits =>
    injection h with h
    injection h with h
    have htext := text_holding hnul (Nat.le_of_lt (Nat.not_le.mp hfits))
    rw [← h, htext]
    refine ⟨rfl, ?_⟩
    by_cases hplace : abstractPlace above (abstractName name) = []
    · refine ⟨some .dir, ?_⟩
      rw [hplace, List.append_nil]
      exact hnames.2 hplace
    · exact ⟨_, hnames.1 hplace⟩

end

end AbstractDirectory

theorem abstractPlace_child_iff (above : Path) {c c' : Name} (hslash : '/' ∉ c) :
    abstractPlace above c = above ++ [abstractEntry] ++ [c'] ↔ IsName c ∧ c = c' := by
  unfold abstractPlace
  split
  next hdot =>
    refine iff_of_false (fun h => ?_) fun h => ?_
    · have := congrArg List.length h
      simp at this
    · rcases hdot with hnil | hdot
      · exact h.1.nonempty hnil
      · exact h.1.dot hdot
  next hdot =>
    obtain ⟨hnil, hone⟩ := not_or.mp hdot
    split
    next htwo =>
      refine iff_of_false (fun h => ?_) fun h => h.1.dotdot htwo
      have := congrArg List.length h
      simp at this
    next htwo =>
      simp only [List.append_assoc, List.append_cancel_left_eq, List.cons_append,
        List.nil_append, List.cons.injEq, true_and, and_true]
      exact ⟨fun h => ⟨⟨hnil, hslash, hone, htwo⟩, h⟩, fun h => h.2⟩

end Directory

/-! ## Two names -/

/-- Two abstract names are two files of the directory exactly when the names the
host is given are two, and names of entries. -/
theorem abstract_names_apart_iff {s : PathContext} {k : HostFiles} {top above : Path}
    (hd : AbstractDirectory s k top above) {name₁ name₂ : List Char} {a b : SunPath}
    (h₁ : (s.toHostSocketAddress k (abstractAddress name₁)).1 = some (.unix a))
    (h₂ : (s.toHostSocketAddress k (abstractAddress name₂)).1 = some (.unix b)) :
    (a.text ≠ b.text ∧ DirectChild k (top ++ (above ++ [abstractEntry])) a.text ∧
        DirectChild k (top ++ (above ++ [abstractEntry])) b.text) ↔
      abstractName name₁ ≠ abstractName name₂ ∧ IsName (abstractName name₁) ∧
        IsName (abstractName name₂) := by
  have hchild : ∀ {name : List Char} {p : SunPath} {entry : Option Entry},
      k.namei false p.text = .at (top ++ abstractPlace above (abstractName name)) entry →
      (DirectChild k (top ++ (above ++ [abstractEntry])) p.text ↔ IsName (abstractName name)) := by
    intro name p entry hfound
    have hslash := slash_not_mem_abstractName name
    constructor
    · intro ⟨c, entry', _, hc⟩
      rw [hfound] at hc
      injection hc with hplace _
      rw [List.append_assoc] at hplace
      exact ((abstractPlace_child_iff above hslash).mp (List.append_cancel_left hplace)).1
    · intro hname
      refine ⟨_, entry, hname, ?_⟩
      rw [hfound, (abstractPlace_child_iff above hslash).mpr ⟨hname, rfl⟩, List.append_assoc top]
  obtain ⟨htext₁, _, hfound₁⟩ := hd.reaches h₁
  obtain ⟨htext₂, _, hfound₂⟩ := hd.reaches h₂
  rw [hchild hfound₁, hchild hfound₂]
  refine and_congr_left fun hnames => not_congr ⟨fun heq => ?_, fun heq => ?_⟩
  · -- One path leads to one place, and each name's place ends in the name.
    rw [heq, hfound₂] at hfound₁
    injection hfound₁ with hplace _
    have hplace₂ := (abstractPlace_child_iff above
      (slash_not_mem_abstractName name₂)).mpr ⟨hnames.2, rfl⟩
    rw [List.append_cancel_left hplace] at hplace₂
    exact ((abstractPlace_child_iff above (slash_not_mem_abstractName name₁)).mp hplace₂).2
  · rw [htext₁, htext₂, heq]

def socketHost : HostFiles where
  tree :=
    { entries := [([['g']], .dir), ([['g'], tmpName], .dir),
        ([['g'], tmpName, abstractEntry], .dir)]
      named := by decide
      once := by decide
      parents := by decide }
  cwd := []
  maxLinks := 32

def socketGuest : PathContext where
  guestRoot := ['/', 'g']
  programPath := []
  pid := 1
  cwd := ['/']
  files := []

theorem abstract_names_collide :
    (socketGuest.toHostSocketAddress socketHost (abstractAddress ['a', '/', 'b'])).1 =
        some (.unix (.holding "/g/tmp/.fathom-abstract/a%b".toList)) ∧
      (socketGuest.toHostSocketAddress socketHost (abstractAddress ['a', '%', 'b'])).1 =
        some (.unix (.holding "/g/tmp/.fathom-abstract/a%b".toList)) ∧
      (socketGuest.toHostSocketAddress socketHost (abstractAddress ['a'])).1 =
        (socketGuest.toHostSocketAddress socketHost (abstractAddress ['a', nul, 'b'])).1 ∧
      (socketGuest.toHostSocketAddress socketHost (abstractAddress ['.', '.'])).1 =
        some (.unix (.holding "/g/tmp".toList)) := by
  decide +kernel

theorem socketHost_directory : AbstractDirectory socketGuest socketHost [['g']] [tmpName] where
  root := by
    have hat : socketHost.namei false ['/', 'g'] = .at [['g']] (some .dir) := by decide
    exact hat
  leads := ⟨0, by decide, .down (by decide) (by decide) .here⟩
  dir := by decide
  links c target := by
    intro h
    have hmem := (socketHost.tree.find_eq_some_iff (by simp)).mp h
    simp [socketHost] at hmem
  noNul := by decide

theorem abstract_names_apart_plain :
    ∃ a b, (socketGuest.toHostSocketAddress socketHost (abstractAddress ['x'])).1 = some (.unix a) ∧
    (socketGuest.toHostSocketAddress socketHost (abstractAddress ['y'])).1 = some (.unix b) ∧
    a.text ≠ b.text := by
  have h₁ : (socketGuest.toHostSocketAddress socketHost (abstractAddress ['x'])).1 =
      some (.unix (.holding "/g/tmp/.fathom-abstract/x".toList)) := by decide +kernel
  have h₂ : (socketGuest.toHostSocketAddress socketHost (abstractAddress ['y'])).1 =
      some (.unix (.holding "/g/tmp/.fathom-abstract/y".toList)) := by decide +kernel
  exact ⟨_, _, h₁, h₂, ((abstract_names_apart_iff socketHost_directory h₁ h₂).mpr
    ⟨by decide, by decide, by decide⟩).1⟩

end Fathom
