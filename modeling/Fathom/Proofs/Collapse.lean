import Fathom.Proofs.GuestPath

/-!
# The path a system call was given

A system call collapses its path before anything is looked up, taking a name and the `..`
after it away together, where Linux goes to the parent of the directory that the name leads
to. The two agree when every name before a `..` is a directory and no link (`Steady`): the
proof goes along the names, with the collapsed prefix naming the place that the whole one
does. From that, what `ResolveAt` hands the host names what the guest's own path does.
Collapsing for its own sake comes last: twice is once, and a path collapses piece by piece.
-/

namespace Fathom

open Lib.Namei

/-! ## Collapsing -/

section Collapse

theorem normaliseParts_append (names : List Name) (c : Name) :
    normaliseParts (names ++ [c]) = if c = ['.'] then normaliseParts names
      else if c = ['.', '.'] then (normaliseParts names).dropLast
      else normaliseParts names ++ [c] := by
  unfold normaliseParts
  rw [List.foldl_append]
  rfl

variable {names : List Name}

theorem normaliseParts_names (h : ∀ c ∈ names, IsPart c) :
    ∀ c ∈ normaliseParts names, IsName c := by
  induction names using List.reverseRecOn with
  | nil => exact fun c hc => (nomatch hc)
  | append_singleton _ c ih =>
    have hinit := ih fun d hd => h d (List.mem_append_left _ hd)
    have hc := h c (by simp)
    rw [normaliseParts_append]
    split
    · exact hinit
    next h1 =>
      split
      · exact fun d hd => hinit d (List.mem_of_mem_dropLast hd)
      next h2 =>
        intro d hd
        rcases List.mem_append.mp hd with hd | hd
        · exact hinit d hd
        · rw [List.mem_singleton.mp hd]
          exact ⟨hc.1, hc.2, h1, h2⟩

theorem normaliseParts_of_names (h : ∀ c ∈ names, IsName c) : normaliseParts names = names := by
  induction names using List.reverseRecOn with
  | nil => rfl
  | append_singleton _ c ih =>
    have hc := h c (by simp)
    rw [normaliseParts_append, if_neg hc.dot, if_neg hc.dotdot,
      ih fun d hd => h d (List.mem_append_left _ hd)]

variable {find : Path → Option Entry} {nofollow : Bool}

def LstatDir (find : Path → Option Entry) (names : List Name) : Prop :=
  names = [] ∨ ∃ n place, Leads find true n [] names place ∧ find place = some .dir

/-- Before every `..` stands a directory, and not a link to one; and so it does at
the end, if the path ends in a dot or two and its last link is not followed. -/
structure Steady (find : Path → Option Entry) (nofollow : Bool) (names : List Name) : Prop where
  back : ∀ first, first ++ [['.', '.']] <+: names → LstatDir find (normaliseParts first)
  final : nofollow = true → (names.getLast? = some ['.'] ∨ names.getLast? = some ['.', '.']) →
    LstatDir find (normaliseParts names)

theorem LstatDir.parent (h : LstatDir find names) {n : Nat} {place : Path}
    (hleads : Leads find false n [] names place) (hnames : ∀ c ∈ names, IsName c) :
    ∃ m ≤ n, Leads find false m [] names.dropLast place.dropLast := by
  rcases h with rfl | ⟨n', _, h', hdir⟩
  · obtain ⟨rfl, rfl⟩ := leads_nil hleads
    exact ⟨0, le_rfl, .here⟩
  obtain ⟨rfl, rfl⟩ := hleads.unique (h'.followed fun target ht => by
    rw [hdir] at ht
    cases ht)
  rcases List.eq_nil_or_concat' names with rfl | ⟨_, c, rfl⟩
  · obtain ⟨rfl, rfl⟩ := leads_nil hleads
    exact ⟨0, le_rfl, .here⟩
  have hc := hnames c (by simp)
  obtain ⟨n₁, _, _, hn, h₁, _, h₂⟩ := h'.split (List.cons_ne_nil c []) rfl (plainDir_nil find)
  rw [List.dropLast_concat]
  refine ⟨n₁, by omega, ?_⟩
  cases h₂ with
  | dot _ => exact absurd rfl hc.dot
  | dotdot _ => exact absurd rfl hc.dotdot
  | down _ _ h₂ =>
    obtain ⟨_, rfl⟩ := leads_nil h₂
    rw [List.dropLast_concat]
    exact h₁
  | last _ _ =>
    rw [List.dropLast_concat]
    exact h₁
  | link _ _ _ hmore _ => exact absurd ⟨rfl, rfl⟩ hmore

theorem Steady.follows (hparts : ∀ c ∈ names, IsPart c) :
    ∀ {n : Nat} {place : Path}, (∀ first, first ++ [['.', '.']] <+: names →
      LstatDir find (normaliseParts first)) → Leads find false n [] names place →
      ∃ m ≤ n, Leads find false m [] (normaliseParts names) place := by
  induction names using List.reverseRecOn with
  | nil =>
    intro n place _ h
    exact ⟨n, le_rfl, h⟩
  | append_singleton names c ih =>
    intro n place hback h
    have hinit : ∀ d ∈ names, IsPart d := fun d hd => hparts d (List.mem_append_left _ hd)
    obtain ⟨_, n₂, _, hn, h₁, hmid, h₂⟩ := h.split (List.cons_ne_nil c []) rfl (plainDir_nil find)
    obtain ⟨m, hm, hfirst⟩ := ih hinit
      (fun first hp => hback first (hp.trans (List.prefix_append _ _))) h₁
    rw [normaliseParts_append]
    split
    next hdot =>
      subst hdot
      obtain ⟨_, rfl⟩ := leads_nil (leads_dot h₂)
      exact ⟨m, by omega, hfirst⟩
    next hdot =>
      split
      next hdotdot =>
        subst hdotdot
        obtain ⟨_, rfl⟩ := leads_nil (leads_dotdot h₂)
        obtain ⟨m', hm', hparent⟩ := (hback names List.prefix_rfl).parent hfirst
          (normaliseParts_names hinit)
        exact ⟨m', by omega, hparent⟩
      · exact ⟨m + n₂, by omega, hfirst.append (List.cons_ne_nil c []) hmid h₂⟩

theorem Steady.normalise (hparts : ∀ c ∈ names, IsPart c) (hsteady : Steady find nofollow names)
    {n : Nat} {place : Path} (h : Leads find nofollow n [] names place) :
    ∃ m ≤ n, Leads find nofollow m [] (normaliseParts names) place := by
  cases nofollow with
  | false => exact Steady.follows hparts hsteady.back h
  | true =>
    rcases List.eq_nil_or_concat' names with rfl | ⟨first, c, rfl⟩
    · exact ⟨n, le_rfl, h⟩
    have hinit : ∀ d ∈ first, IsPart d := fun d hd => hparts d (List.mem_append_left _ hd)
    obtain ⟨_, n₂, mid, hn, h₁, hmid, h₂⟩ := h.split (List.cons_ne_nil c []) rfl (plainDir_nil find)
    by_cases hname : c = ['.'] ∨ c = ['.', '.']
    · -- The end is a directory the walk is in already, so following changes nothing.
      have h₂' : Leads find false n₂ mid [c] place := by
        rcases hname with rfl | rfl
        · obtain ⟨rfl, rfl⟩ := leads_nil (leads_dot h₂)
          exact .dot .here
        · obtain ⟨rfl, rfl⟩ := leads_nil (leads_dotdot h₂)
          exact .dotdot .here
      have hall := h₁.append (List.cons_ne_nil c []) hmid h₂'
      obtain ⟨m, hm, hfollows⟩ := Steady.follows hparts hsteady.back hall
      have hend := hsteady.final rfl (by simpa using hname)
      rcases hend with hnil | ⟨m', _, h', hdir⟩
      · rw [hnil] at hfollows ⊢
        obtain ⟨rfl, rfl⟩ := leads_nil hfollows
        exact ⟨0, Nat.zero_le _, .here⟩
      · obtain ⟨rfl, rfl⟩ := hfollows.unique (h'.followed fun target ht => by
          rw [hdir] at ht
          cases ht)
        exact ⟨m, by omega, h'⟩
    · obtain ⟨hdot, hdotdot⟩ := not_or.mp hname
      obtain ⟨m, hm, hfirst⟩ := Steady.follows hinit
        (fun pre hp => hsteady.back pre (hp.trans (List.prefix_append _ _))) h₁
      rw [normaliseParts_append, if_neg hdot, if_neg hdotdot]
      exact ⟨m + n₂, by omega, hfirst.append (List.cons_ne_nil c []) hmid h₂⟩

end Collapse

/-! ## The path a system call was given -/

/-- A path's components as Linux takes them: a slash at the end asks for the
directory itself. -/
def rawComponents (path : List Char) : List Name :=
  components path ++ if path.getLast? = some '/' then [['.']] else []

theorem splitFrom_ne_nil {c : Char} (hc : c ≠ '/') : ∀ (path : List Char) (part : Name),
    path.getLast? = some c → splitFrom path part ≠ [] := by
  intro path
  induction path with
  | nil =>
    intro part h
    cases h
  | cons d rest ih =>
    intro part h
    rw [splitFrom]
    cases rest with
    | nil =>
      obtain rfl : d = c := by simpa using h
      rw [if_neg hc]
      exact List.cons_ne_nil _ _
    | cons e _ =>
      split
      · split
        · exact ih [] h
        · exact List.cons_ne_nil _ _
      · exact ih _ h

theorem rawComponents_ne_nil {path : List Char} (h : path ≠ []) : rawComponents path ≠ [] := by
  unfold rawComponents
  split
  · simp
  next hlast =>
    rw [List.append_nil, ← split_eq_components]
    have hend := List.getLast?_eq_some_getLast h
    refine splitFrom_ne_nil (fun hslash => hlast ?_) path [] hend
    rw [hend, hslash]

theorem isPart_rawComponents {path : List Char} {c : Name} (hc : c ∈ rawComponents path) :
    IsPart c := by
  rcases List.mem_append.mp hc with hc | hc
  · rw [← split_eq_components] at hc
    exact isPart_of_mem_split hc
  · split at hc
    · rw [List.mem_singleton.mp hc]
      exact ⟨by decide, by decide⟩
    · cases hc

theorem normaliseParts_raw (first : List Name) (path : List Char) :
    normaliseParts (first ++ rawComponents path) = normaliseParts (first ++ components path) := by
  unfold rawComponents
  split
  · rw [← List.append_assoc, normaliseParts_append, if_pos rfl]
  · rw [List.append_nil]

namespace PathContext

open HostFiles (linked linked_leads linked_root linked_find_l)

variable {s : PathContext} {k : HostFiles}

def startsAt (s : PathContext) (dirfd : Int) (path : List Char) : Option (List Char) :=
  if absolute path then some ['/']
  else if dirfd = kAtFdCwd then some s.cwd
  else s.files.lookup dirfd

/-- A path that stands for the program's own binary or a device of the host's. -/
def Substituted (s : PathContext) (path : List Char) : Prop :=
  (s.programPath ≠ [] ∧ (s.isProcSelfExe path = true ∨
      s.isProcSelfExe (s.collapsedPath path) = true)) ∨ s.collapsedPath path ∈ hostDevices

theorem collapsedPath_spec (s : PathContext) (path : List Char) :
    components (s.collapsedPath path) = normaliseParts (components (s.absolutePath path)) ∧
    absolute (s.collapsedPath path) = true := by
  have hnames : ∀ c ∈ normaliseParts (components (s.absolutePath path)), IsName c := by
    rw [← split_eq_components]
    exact normaliseParts_names fun c hc => isPart_of_mem_split hc
  unfold collapsedPath
  rw [split_eq_components]
  generalize normaliseParts (components (s.absolutePath path)) = names at hnames
  cases names with
  | nil => exact ⟨rfl, rfl⟩
  | cons c rest =>
    obtain ⟨text, htext⟩ := join_prefix ('/' :: c) rest
    have hjoin : join [] (c :: rest) = '/' :: (c ++ text) := htext
    rw [if_neg (by rw [hjoin]; exact List.cons_ne_nil _ _)]
    refine ⟨?_, by rw [hjoin]; rfl⟩
    rw [components_join [] hnames]
    rfl

variable {path : List Char}

theorem absolutePath_of_absolute (h : absolute path = true) : s.absolutePath path = path := by
  have hhead : path.head? = some '/' := of_decide_eq_true h
  unfold absolutePath
  rw [if_neg, if_neg (not_not.mpr hhead)]
  rintro rfl
  cases hhead

theorem collapsedPath_idem (s : PathContext) (path : List Char) :
    s.collapsedPath (s.collapsedPath path) = s.collapsedPath path := by
  obtain ⟨hcomp, habs⟩ := s.collapsedPath_spec path
  have hnames : ∀ c ∈ components (s.collapsedPath path), IsName c := by
    rw [hcomp, ← split_eq_components]
    exact normaliseParts_names fun c hc => isPart_of_mem_split hc
  have hunfold : ∀ p, s.collapsedPath p =
      if join [] (normaliseParts (components (s.absolutePath p))) = [] then ['/']
      else join [] (normaliseParts (components (s.absolutePath p))) := fun p => by
    rw [← split_eq_components]
    rfl
  rw [hunfold (s.collapsedPath path), absolutePath_of_absolute habs,
    normaliseParts_of_names hnames, hcomp, ← hunfold]

theorem components_absolutePath (hne : path ≠ []) (hrel : absolute path = false) :
    components (s.absolutePath path) = components s.cwd ++ components path := by
  have hhead : path.head? ≠ some '/' := of_decide_eq_false hrel
  unfold absolutePath
  rw [if_neg hne, if_pos hhead]
  split
  next hslash =>
    obtain ⟨init, hinit⟩ : ∃ init, s.cwd = init ++ ['/'] := by
      rcases List.eq_nil_or_concat' s.cwd with h0 | ⟨init, c, hc⟩
      · rw [h0] at hslash
        cases hslash
      · rw [hc, List.getLast?_concat, Option.some.injEq] at hslash
        exact ⟨init, by rw [hc, hslash]⟩
    rw [hinit, List.append_nil, List.append_assoc]
    change components (init ++ '/' :: path) = components (init ++ '/' :: []) ++ _
    rw [components_append, components_append]
    exact congrArg (· ++ components path) (List.append_nil _).symm
  · rw [List.append_assoc]
    exact components_append s.cwd path

theorem components_request {dirfd : Int} {start : List Char} (hne : path ≠ [])
    (hstart : s.startsAt dirfd path = some start) (habs : absolute start = true) :
    s.atRequest dirfd path ≠ [] ∧ components (s.absolutePath (s.atRequest dirfd path)) =
        components start ++ components path := by
  unfold startsAt at hstart
  unfold atRequest
  split at hstart
  next hpath =>
    cases hstart
    rw [if_neg fun h => h.2.1 (of_decide_eq_true hpath), absolutePath_of_absolute hpath]
    exact ⟨hne, rfl⟩
  next hpath =>
    have hrel : absolute path = false := Bool.not_eq_true _ ▸ hpath
    have hhead : path.head? ≠ some '/' := of_decide_eq_false hrel
    split at hstart
    next hcwd =>
      cases hstart
      rw [if_neg fun h => h.2.2 hcwd]
      exact ⟨hne, components_absolutePath hne hrel⟩
    next hcwd =>
      rw [if_pos ⟨hne, hhead, hcwd⟩, hstart]
      have hstart' : start ≠ [] := by
        rintro rfl
        cases habs
      have hreq : absolute (start ++ '/' :: path) = true := by
        rw [absolute_append hstart']
        exact habs
      rw [absolutePath_of_absolute hreq]
      exact ⟨by simp, components_append start path⟩

theorem normaliseGuestPath_eq (hsub : ¬ s.Substituted path) :
    s.normaliseGuestPath path = s.collapsedPath path := by
  refine if_neg fun h => hsub (.inl ?_)
  rw [Bool.and_eq_true, Bool.not_eq_true', List.isEmpty_eq_false_iff] at h
  exact ⟨h.1, .inl h.2⟩

theorem resolveGuestPath_eq (hne : path ≠ []) (hsub : ¬ s.Substituted path) (followFinal : Bool) :
    s.resolveGuestPath k path followFinal = if s.guestRoot = [] then s.collapsedPath path
      else resolveGuestPathOnHost k s.guestRoot (s.collapsedPath path) followFinal := by
  have hdevice : s.collapsedPath path ∉ hostDevices := fun h => hsub (.inr h)
  unfold resolveGuestPath
  rw [if_neg hne, normaliseGuestPath_eq hsub]
  rw [if_neg hdevice]

theorem resolveAt_eq {dirfd : Int} (hne : s.atRequest dirfd path ≠ [])
    (hsub : ¬ s.Substituted (s.atRequest dirfd path)) (followFinal : Bool) :
    (s.resolveAt k dirfd path followFinal).1 =
      s.resolveGuestPath k (s.atRequest dirfd path) followFinal := by
  have hcollapsed : ¬ s.Substituted (s.collapsedPath (s.atRequest dirfd path)) := by
    rintro (⟨hprogram, hexe⟩ | hdevice)
    · rw [collapsedPath_idem] at hexe
      exact hsub (.inl ⟨hprogram, .inr (hexe.elim id id)⟩)
    · rw [collapsedPath_idem] at hdevice
      exact hsub (.inr hdevice)
  have hne' : s.collapsedPath (s.atRequest dirfd path) ≠ [] := by
    intro h0
    have habs := (s.collapsedPath_spec (s.atRequest dirfd path)).2
    rw [h0] at habs
    cases habs
  unfold resolveAt
  dsimp only
  rw [if_neg hne, normaliseGuestPath_eq hsub]
  rw [resolveGuestPath_eq hne' hcollapsed, resolveGuestPath_eq hne hsub, collapsedPath_idem]

/-- Where the guest's root is. Without one the guest has the host's. -/
def RootAt (s : PathContext) (k : HostFiles) (top : Path) : Prop :=
  if s.guestRoot = [] then top = [] else k.namei false s.guestRoot = .at top (some .dir)

def linkLimit (s : PathContext) (k : HostFiles) : Nat :=
  if s.guestRoot = [] then k.maxLinks else kMaxSymlinkHops

theorem names_collapsed {top : Path} (hroot : s.RootAt k top)
    (hne : path ≠ []) (hsub : ¬ s.Substituted path) (followFinal : Bool) {n : Nat}
    (hn : n ≤ s.linkLimit k) {place : Path} (h : Leads (k.below top) (!followFinal) n []
      (normaliseParts (components (s.absolutePath path))) place) :
    k.Names top (!followFinal) (s.resolveGuestPath k path followFinal) place := by
  obtain ⟨hcomp, habs⟩ := s.collapsedPath_spec path
  rw [← hcomp] at h
  rw [resolveGuestPath_eq hne hsub]
  unfold RootAt at hroot
  unfold linkLimit at hn
  split at hroot
  next h0 =>
    subst hroot
    rw [if_pos h0] at hn ⊢
    have hne' : s.collapsedPath path ≠ [] := by
      intro h0
      rw [h0] at habs
      cases habs
    have hnamei : ∀ {nofollow}, Leads k.tree.find nofollow n [] (components (s.collapsedPath path))
        place → k.namei nofollow (s.collapsedPath path) = .at place (k.tree.find place) := by
      intro nofollow h
      unfold HostFiles.namei
      rw [if_neg hne', if_pos habs]
      exact h.walk hn
    refine ⟨fun _ => hnamei h, ?_⟩
    rintro rfl
    exact hnamei (Leads.followed h fun target ht => (nomatch ht))
  next h0 =>
    rw [if_neg h0] at hn ⊢
    exact k.resolveGuestPathOnHost_chroot hroot _ followFinal hn h

/-- A path in which no `..` comes after a link names, on the host, what Linux finds
at it from the directory it starts in. -/
theorem resolveAt_names (s : PathContext) (k : HostFiles) {top : Path}
    (hroot : s.RootAt k top) (dirfd : Int) {path : List Char} (hne : path ≠ [])
    (hsub : ¬ s.Substituted (s.atRequest dirfd path)) (followFinal : Bool) {start : List Char}
    (hstart : s.startsAt dirfd path = some start) (habs : absolute start = true)
    {n₁ n₂ : Nat} {dir place : Path} (hdir : Leads (k.below top) false n₁ [] (components start) dir)
    (hisdir : dir ≠ [] → k.below top dir = some .dir)
    (hleads : Leads (k.below top) (!followFinal) n₂ dir (rawComponents path) place)
    (hlinks : n₁ + n₂ ≤ s.linkLimit k)
    (hsteady : Steady (k.below top) (!followFinal) (components start ++ rawComponents path)) :
    k.Names top (!followFinal) (s.resolveAt k dirfd path followFinal).1 place ∧ (dirfd = kAtFdCwd →
        k.Names top (!followFinal) (s.resolveGuestPath k path followFinal) place) := by
  obtain ⟨hreq, hcomp⟩ := components_request hne hstart habs
  have hall := hdir.append (rawComponents_ne_nil hne) ⟨hdir.plain (plainDir_nil _), hisdir⟩ hleads
  have hparts : ∀ c ∈ components start ++ rawComponents path, IsPart c := by
    intro c hc
    rcases List.mem_append.mp hc with hc | hc
    · rw [← split_eq_components] at hc
      exact isPart_of_mem_split hc
    · exact isPart_rawComponents hc
  obtain ⟨m, hm, hnormal⟩ := hsteady.normalise hparts hall
  rw [normaliseParts_raw, ← hcomp] at hnormal
  have hnames := names_collapsed hroot hreq hsub followFinal (hm.trans hlinks) hnormal
  refine ⟨by rw [resolveAt_eq hreq hsub]; exact hnames, fun hcwd => ?_⟩
  have hsame : s.atRequest dirfd path = path := if_neg fun h => h.2.2 hcwd
  rw [hsame] at hnames
  exact hnames

def atLinked : PathContext where
  guestRoot := ['/', 'g']
  programPath := []
  pid := 1
  cwd := ['/']
  files := []

theorem resolveGuestPath_collapses :
    atLinked.resolveGuestPath linked ['/', 'l', '/', '.', '.'] true = ['/', 'g'] ∧
    (atLinked.resolveAt linked kAtFdCwd ['/', 'l', '/', '.', '.'] true).1 = ['/', 'g'] ∧
    Leads (linked.below [['g']]) false 1 [] (rawComponents ['/', 'l', '/', '.', '.']) [['a']] ∧
    ¬ linked.Names [['g']] false
      (atLinked.resolveGuestPath linked ['/', 'l', '/', '.', '.'] true) [['a']] := by
  have hout : atLinked.resolveGuestPath linked ['/', 'l', '/', '.', '.'] true = ['/', 'g'] := by
    decide
  refine ⟨hout, by decide, ?_, fun h => ?_⟩
  · exact linked_leads
  · exact absurd (h.1 (by decide)) (by decide)

theorem resolveAt_names_linked : linked.Names [['g']] false
      (atLinked.resolveAt linked kAtFdCwd ['a', '/', '.', '.', '/', 'l'] true).1
      [['a'], ['b']] := by
  have hroot : atLinked.RootAt linked [['g']] := linked_root
  have hstart : atLinked.startsAt kAtFdCwd ['a', '/', '.', '.', '/', 'l'] = some ['/'] := by decide
  have hdir : Leads (linked.below [['g']]) false 0 [] (components ['/']) [] := .here
  have hleads : Leads (linked.below [['g']]) false 1 []
      (rawComponents ['a', '/', '.', '.', '/', 'l']) [['a'], ['b']] :=
    .down (by decide) (by decide) (.dotdot (.link (by decide) linked_find_l (by decide) (by decide)
      (.down (by decide) (by decide) (.down (by decide) (by decide) .here))))
  refine (atLinked.resolveAt_names linked hroot kAtFdCwd (by decide) ?_ true hstart (by decide) hdir
    (fun h => absurd rfl h) hleads (by decide) ⟨fun first hfirst => ?_, fun h => (nomatch h)⟩).1
  · rintro (⟨h, _⟩ | h)
    · exact h rfl
    · exact absurd h (by decide)
  · have hnames : components ['/'] ++ rawComponents ['a', '/', '.', '.', '/', 'l'] =
        [['a'], ['.', '.'], ['l']] := by decide
    rw [hnames] at hfirst
    have honly : first = [['a']] := by
      have hlen := hfirst.length_le
      rw [List.prefix_iff_eq_take] at hfirst
      match first, hfirst with
      | [], h => exact absurd h (by decide)
      | [_], h => exact congrArg (·.take 1) h
      | [_, _], h =>
        have hlast : [['.', '.']] = [['l']] := congrArg (·.drop 2) h
        exact absurd hlast (by decide)
      | _ :: _ :: _ :: _, _ =>
        simp only [List.length_append, List.length_cons] at hlen
        omega
    rw [honly]
    exact .inr ⟨0, [['a']], .down (by decide) (by decide) .here, by decide⟩

/-! ## The program's own binary -/

/-- A name that is replaced by the program's path, before it is collapsed or after. -/
def StandsForExe (s : PathContext) (dirfd : Int) (path : List Char) : Prop :=
  s.programPath ≠ [] ∧ (s.isProcSelfExe (s.atRequest dirfd path) = true ∨
    s.isProcSelfExe (s.collapsedPath (s.atRequest dirfd path)) = true)

theorem normaliseGuestPath_of_not_exe (h : s.programPath = [] ∨ s.isProcSelfExe path = false) :
    s.normaliseGuestPath path = s.collapsedPath path := by
  refine if_neg fun hexe => ?_
  rw [Bool.and_eq_true, Bool.not_eq_true', List.isEmpty_eq_false_iff] at hexe
  rcases h with h | h
  · exact hexe.1 h
  · rw [h] at hexe
    cases hexe.2

theorem normalise_of_not_exe {dirfd : Int} {path : List Char} (h : ¬ s.StandsForExe dirfd path) :
    s.normaliseGuestPath (s.atRequest dirfd path) = s.collapsedPath (s.atRequest dirfd path) ∧
    s.normaliseGuestPath (s.collapsedPath (s.atRequest dirfd path)) =
      s.collapsedPath (s.atRequest dirfd path) := by
  by_cases hprogram : s.programPath = []
  · rw [normaliseGuestPath_of_not_exe (.inl hprogram),
      normaliseGuestPath_of_not_exe (.inl hprogram), collapsedPath_idem]
    exact ⟨rfl, rfl⟩
  · have hrequest := Bool.eq_false_iff.mpr fun hexe => h ⟨hprogram, .inl hexe⟩
    have hcollapsed := Bool.eq_false_iff.mpr fun hexe => h ⟨hprogram, .inr hexe⟩
    rw [normaliseGuestPath_of_not_exe (.inr hrequest),
      normaliseGuestPath_of_not_exe (.inr hcollapsed), collapsedPath_idem]
    exact ⟨rfl, rfl⟩

/-! ## Collapsing is an algebra of paths -/

/-- The path is a name of the process's own binary, or collapses to one. -/
def NamesExe (s : PathContext) (path : List Char) : Prop :=
  s.isProcSelfExe path = true ∨ s.isProcSelfExe (s.collapsedPath path) = true

theorem normaliseParts_twice {names : List Name} (h : ∀ c ∈ names, IsPart c) (more : List Name) :
    normaliseParts (normaliseParts names ++ more) = normaliseParts (names ++ more) := by
  have hnames := normaliseParts_of_names (normaliseParts_names h)
  unfold normaliseParts at hnames ⊢
  rw [List.foldl_append, List.foldl_append, hnames]

theorem collapsedPath_congr {s' : PathContext} {path' : List Char}
    (h : normaliseParts (components (s.absolutePath path)) =
      normaliseParts (components (s'.absolutePath path'))) :
    s.collapsedPath path = s'.collapsedPath path' := by
  unfold collapsedPath
  rw [split_eq_components, split_eq_components, h]

theorem not_exe_of_relative (h : absolute path = false) : s.isProcSelfExe path = false := by
  rw [Bool.eq_false_iff]
  intro hexe
  simp only [isProcSelfExe, Bool.or_eq_true, decide_eq_true_eq] at hexe
  rcases hexe with rfl | rfl <;> cases h

theorem collapsedPath_append {p q : List Char} (hp : absolute p = true) (hq : absolute q = false) :
    s.collapsedPath (p ++ '/' :: q) =
      PathContext.collapsedPath { s with cwd := s.collapsedPath p } q := by
  have habs : absolute (p ++ '/' :: q) = true := by
    rw [absolute_append (by rintro rfl; cases hp)]
    exact hp
  have hparts : ∀ c ∈ components p, IsPart c := by
    rw [← split_eq_components]
    exact fun c hc => isPart_of_mem_split hc
  have hcomp := (s.collapsedPath_spec p).1
  rw [absolutePath_of_absolute hp] at hcomp
  apply collapsedPath_congr
  rw [absolutePath_of_absolute habs, components_append, ← normaliseParts_twice hparts, ← hcomp]
  by_cases hne : q = []
  · rw [hne]
    exact congrArg normaliseParts (List.append_nil _)
  · rw [components_absolutePath hne hq]

/-- The normal form is a path of plain names, its own normal form, and of an absolute path the
same everywhere; and what is left of a path's beginning is its normal form. -/
theorem normaliseGuestPath_laws (s : PathContext) : (∀ path, ¬ s.NamesExe path →
      (s.normaliseGuestPath path = ['/'] ∨ ∃ names ≠ [], (∀ c ∈ names, IsName c) ∧
        s.normaliseGuestPath path = join [] names) ∧
      s.normaliseGuestPath (s.normaliseGuestPath path) = s.normaliseGuestPath path ∧
      (absolute path = true → ∀ cwd,
        s.normaliseGuestPath path = PathContext.normaliseGuestPath { s with cwd } path)) ∧
    ∀ p q, absolute p = true → absolute q = false → ¬ s.NamesExe p → ¬ s.NamesExe (p ++ '/' :: q) →
      s.normaliseGuestPath (p ++ '/' :: q) =
        PathContext.normaliseGuestPath { s with cwd := s.normaliseGuestPath p } q := by
  have hplain {s : PathContext} {path} (h : s.isProcSelfExe path ≠ true) :
      s.normaliseGuestPath path = s.collapsedPath path :=
    normaliseGuestPath_of_not_exe (.inr (Bool.eq_false_iff.mpr h))
  refine ⟨fun path hexe => ?_, fun p q hp hq hexe hexe' => ?_⟩
  · obtain ⟨hpath, hcollapsed⟩ := not_or.mp hexe
    rw [hplain hpath]
    refine ⟨?_, ?_, fun habs cwd => ?_⟩
    · by_cases hempty : join [] (normaliseParts (split (s.absolutePath path))) = []
      · exact .inl (if_pos hempty)
      · refine .inr ⟨_, fun hnil => hempty ?_, ?_, if_neg hempty⟩
        · rw [hnil]
          rfl
        · exact normaliseParts_names fun c hc => isPart_of_mem_split hc
    · rw [hplain hcollapsed, collapsedPath_idem]
    · refine (collapsedPath_congr ?_).trans (hplain (s := { s with cwd }) hpath).symm
      rw [absolutePath_of_absolute habs, absolutePath_of_absolute habs]
  · obtain ⟨hpath, -⟩ := not_or.mp hexe
    obtain ⟨hjoined, -⟩ := not_or.mp hexe'
    rw [hplain hpath, hplain hjoined, collapsedPath_append hp hq,
      normaliseGuestPath_of_not_exe (.inr (not_exe_of_relative hq))]

theorem normaliseGuestPath_laws_linked :
    atLinked.normaliseGuestPath ("/a".toList ++ '/' :: "../b".toList) =
      PathContext.normaliseGuestPath
        { atLinked with cwd := atLinked.normaliseGuestPath "/a".toList } "../b".toList :=
  (normaliseGuestPath_laws atLinked).2 _ _ (by decide) (by decide) (by unfold NamesExe; decide)
    (by unfold NamesExe; decide)

end PathContext

end Fathom
