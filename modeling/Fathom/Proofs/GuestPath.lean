import Fathom.Runtime.GuestPath

/-!
# What a resolved path leaves to the host

The components resolved so far are settled: the host finds no link at any of their
prefixes, or an empty one (`Settled`).
-/

namespace Fathom

open Lib.Namei

/-! ## Text and components -/

theorem splitFrom_eq (path : List Char) :
    ∀ part : Name, '/' ∉ part → splitFrom path part = components (part.reverse ++ path) := by
  induction path with
  | nil =>
    intro part hs
    rw [splitFrom, List.append_nil]
    split
    next h0 =>
      rw [h0]
      rfl
    next hne => rw [components_of_slash (by simpa using hne) (by simpa using hs)]
  | cons c _ ih =>
    intro part hs
    rw [splitFrom]
    by_cases hc : c = '/'
    · rw [if_pos hc, hc, components_append, ih [] List.not_mem_nil]
      split
      next h0 =>
        rw [h0]
        rfl
      next hne =>
        rw [components_of_slash (c := part.reverse) (by simpa using hne) (by simpa using hs)]
        rfl
    · rw [if_neg hc, ih (c :: part) (by simpa using ⟨Ne.symm hc, hs⟩), List.reverse_cons,
        List.append_assoc]
      rfl

theorem split_eq_components (path : List Char) : split path = components path :=
  splitFrom_eq path [] List.not_mem_nil

theorem mem_splitFrom {c : Name} (path : List Char) :
    ∀ part : Name, '/' ∉ part → c ∈ splitFrom path part → c ≠ [] ∧ '/' ∉ c := by
  induction path with
  | nil =>
    intro part hs hc
    rw [splitFrom] at hc
    split at hc
    · cases hc
    next hne =>
      rw [List.mem_singleton] at hc
      subst hc
      simpa using ⟨hne, hs⟩
  | cons d _ ih =>
    intro part hs hc
    rw [splitFrom] at hc
    split at hc
    · split at hc
      · exact ih [] List.not_mem_nil hc
      next hne =>
        rcases List.mem_cons.mp hc with rfl | hc
        · simpa using ⟨hne, hs⟩
        · exact ih [] List.not_mem_nil hc
    next hd => exact ih (d :: part) (by simpa using ⟨Ne.symm hd, hs⟩) hc

def IsPart (c : Name) : Prop := c ≠ [] ∧ '/' ∉ c

theorem isPart_of_mem_split {c : Name} {path : List Char} (hc : c ∈ split path) : IsPart c :=
  mem_splitFrom path [] List.not_mem_nil hc

section

variable (root : List Char)

theorem join_append (parts : List Name) (part : Name) :
    join root (parts ++ [part]) = join root parts ++ '/' :: part := by
  unfold join
  rw [List.foldl_append]
  rfl

theorem join_eq_append (parts : List Name) : join root parts = root ++ join [] parts := by
  induction parts using List.reverseRecOn with
  | nil => exact (List.append_nil _).symm
  | append_singleton _ _ ih => rw [join_append, join_append, ih, List.append_assoc]

theorem join_prefix (parts : List Name) : ∃ rest, join root parts = root ++ rest := by
  induction parts using List.reverseRecOn with
  | nil => exact ⟨[], (List.append_nil root).symm⟩
  | append_singleton _ _ ih =>
    obtain ⟨_, hrest⟩ := ih
    rw [join_append, hrest, List.append_assoc]
    exact ⟨_, rfl⟩

theorem components_join {parts : List Name} (h : ∀ c ∈ parts, IsName c) :
    components (join root parts) = components root ++ parts := by
  induction parts using List.reverseRecOn with
  | nil => exact (List.append_nil _).symm
  | append_singleton _ part ih =>
    have hpart := h part (by simp)
    rw [join_append, components_append, ih fun c hc => h c (by simp [hc]),
      components_of_slash hpart.nonempty hpart.slash, List.append_assoc]

end

theorem join_inj {root : List Char} {parts parts' : List Name} (h : ∀ c ∈ parts, IsName c)
    (h' : ∀ c ∈ parts', IsName c) (heq : join root parts = join root parts') : parts = parts' := by
  have := congrArg components heq
  rw [components_join root h, components_join root h'] at this
  exact List.append_cancel_left this

theorem HostFiles.namei_present {k : HostFiles} {path : List Char} {place : Path} {entry : Entry}
    (h : k.namei false path = .at place (some entry)) :
    ∃ place' entry', k.namei true path = .at place' (some entry') := by
  unfold HostFiles.namei at h ⊢
  split at h
  · cases h
  next hne =>
    rw [if_neg hne]
    exact walk_present h

/-! ## The host on a joined path -/

namespace HostFiles

variable {k : HostFiles} {root : List Char} {parts : List Name}

theorem namei_join (hroot : root ≠ []) (nofollow : Bool) (h : ∀ c ∈ parts, IsName c) :
    k.namei nofollow (join root parts) =
      walk k.tree nofollow k.maxLinks (if absolute root then [] else k.cwd)
        (components root ++ parts) := by
  obtain ⟨_, hrest⟩ := join_prefix root parts
  unfold namei
  rw [components_join root h, hrest, absolute_append hroot,
    if_neg fun h0 => hroot (List.append_eq_nil_iff.mp h0).1]

/-- The host finds nothing to follow at any prefix, or a link to nowhere. -/
def Settled (k : HostFiles) (root : List Char) (parts : List Name) : Prop :=
  ∀ p, p ≠ [] → p <+: parts → Idle (k.lstat (join root p))

theorem settled_under (hroot : root ≠ []) {nofollow : Bool} (hne : parts ≠ [])
    (h : ∀ c ∈ parts, IsName c) (hs : k.Settled root (followed nofollow parts)) {place : Path}
    {entry : Option Entry} (hw : k.namei nofollow (join root parts) = .at place entry) :
    ∃ top e, k.namei false root = .at top e ∧ top <+: place := by
  have hroot' : k.namei false root =
      walk k.tree false k.maxLinks (if absolute root then [] else k.cwd) (components root) := by
    unfold namei
    rw [if_neg hroot]
  have hsub : ∀ p, p <+: followed nofollow parts → p <+: parts := fun p hp => by
    unfold followed at hp
    split at hp
    · exact hp.trans (List.dropLast_prefix parts)
    · exact hp
  rw [namei_join hroot nofollow h] at hw
  rcases walk_append k.tree k.maxLinks (if absolute root then [] else k.cwd)
    (components root) with ⟨_, herr⟩ | ⟨_, top, htop, hrest⟩
  · rw [show walk k.tree nofollow k.maxLinks _ _ = _ from herr nofollow parts hne] at hw
    cases hw
  · refine ⟨top, k.tree.find top, hroot'.trans htop, ?_⟩
    rw [show walk k.tree nofollow k.maxLinks _ _ = _ from hrest nofollow parts hne] at hw
    refine walk_under h (fun p hp hpre => ?_) hw
    have hidle := hs p hp hpre
    unfold lstat at hidle
    rw [namei_join hroot true fun c hc => h c ((hsub p hpre).subset hc),
      show walk k.tree true k.maxLinks _ _ = _ from hrest true p hp] at hidle
    exact hidle

theorem Settled.dropLast (hs : k.Settled root parts) : k.Settled root parts.dropLast :=
  fun p hne hp => hs p hne (hp.trans (List.dropLast_prefix parts))

theorem settled_nil : k.Settled root [] := fun _ hne hp => absurd (List.prefix_nil.mp hp) hne

theorem Settled.append (hs : k.Settled root parts) {part : Name}
    (hidle : Idle (k.lstat (join root (parts ++ [part])))) : k.Settled root (parts ++ [part]) := by
  intro p hne hp
  rcases List.prefix_concat_iff.mp hp with rfl | hp
  · exact hidle
  · exact hs p hne hp

theorem readlink_of_lstat {path target : List Char}
    (h : k.lstat path = some (.link target)) : k.readlink path = some target := by
  unfold readlink
  rw [h]

theorem resolveGuestPathOnHost_eq (hroot : root ≠ []) (path : List Char) (followFinal : Bool) :
    resolveGuestPathOnHost k root path followFinal =
      join root (resolveParts k root path followFinal).parts := by
  unfold resolveGuestPathOnHost
  rw [if_neg hroot]
  dsimp only
  split
  next h0 =>
    rw [h0]
    rfl
  · rfl

variable {followFinal : Bool}

/-! ## The loop, turn by turn -/

def afterLink (k : HostFiles) (root : List Char) (followFinal : Bool) :
    Nat → List Name → List Name → Resolved
  | 0 => fun resolved _ => ⟨resolved, .gaveUp⟩
  | hops + 1 => fun resolved pending =>
    match k.readlink (join root resolved) with
    | none => resolveLoop k root followFinal hops resolved pending
    | some [] => resolveLoop k root followFinal hops resolved pending
    | some (c :: target) =>
      resolveLoop k root followFinal hops (if c = '/' then [] else resolved.dropLast)
        (split (c :: target) ++ pending)

theorem resolveLoop_eq (hops : Nat) : resolveLoop k root followFinal hops =
      resolveTo k root followFinal (afterLink k root followFinal hops) := by
  cases hops with
  | zero => rfl
  | succ _ => rfl

section Turns

variable {hops : Nat} {resolved pending : List Name} {part : Name}

theorem loop_nil : resolveLoop k root followFinal hops resolved [] = ⟨resolved, .done⟩ := by
  rw [resolveLoop_eq, resolveTo]

theorem loop_dot : resolveLoop k root followFinal hops resolved (['.'] :: pending) =
    resolveLoop k root followFinal hops resolved pending := by
  rw [resolveLoop_eq, resolveTo, if_pos rfl]

theorem loop_dotdot : resolveLoop k root followFinal hops resolved (['.', '.'] :: pending) =
    resolveLoop k root followFinal hops resolved.dropLast pending := by
  rw [resolveLoop_eq, resolveTo, if_neg (by decide), if_pos rfl]

theorem loop_last (hpart : IsName part) (hfinal : followFinal = false) :
    resolveLoop k root followFinal hops resolved [part] = ⟨resolved ++ [part], .last⟩ := by
  subst hfinal
  rw [resolveLoop_eq, resolveTo, if_neg hpart.dot, if_neg hpart.dotdot]
  rfl

theorem goes_on (hmore : followFinal = true ∨ pending ≠ []) :
    ¬ (!followFinal && pending.isEmpty) = true := by
  rw [Bool.and_eq_true, List.isEmpty_iff]
  rintro ⟨h1, h2⟩
  rcases hmore with h | h
  · rw [h] at h1
    cases h1
  · exact h h2

variable (hpart : IsName part) (hmore : followFinal = true ∨ pending ≠ [])
include hpart hmore

theorem loop_plain
    (hentry : ∀ target, k.lstat (join root (resolved ++ [part])) ≠ some (.link target)) :
    resolveLoop k root followFinal hops resolved (part :: pending) =
      resolveLoop k root followFinal hops (resolved ++ [part]) pending := by
  rw [resolveLoop_eq, resolveTo, if_neg hpart.dot, if_neg hpart.dotdot, if_neg (goes_on hmore)]
  split
  next target htarget => exact absurd htarget (hentry target)
  · rfl

theorem loop_link {target : List Char} (hne : target ≠ [])
    (hentry : k.lstat (join root (resolved ++ [part])) = some (.link target)) :
    resolveLoop k root followFinal (hops + 1) resolved (part :: pending) =
      resolveLoop k root followFinal hops (if absolute target then [] else resolved)
        (components target ++ pending) := by
  rw [resolveLoop_eq, resolveTo, if_neg hpart.dot, if_neg hpart.dotdot, if_neg (goes_on hmore),
    hentry]
  rw [afterLink]
  dsimp only
  rw [readlink_of_lstat hentry]
  cases target with
  | nil => exact absurd rfl hne
  | cons c _ =>
    dsimp only
    rw [split_eq_components]
    unfold absolute
    simp

theorem loop_idle (hentry : k.lstat (join root (resolved ++ [part])) = some (.link [])) :
    resolveLoop k root followFinal (hops + 1) resolved (part :: pending) =
      resolveLoop k root followFinal hops (resolved ++ [part]) pending := by
  rw [resolveLoop_eq, resolveTo, if_neg hpart.dot, if_neg hpart.dotdot, if_neg (goes_on hmore),
    hentry]
  rw [afterLink]
  dsimp only
  rw [readlink_of_lstat hentry]

theorem loop_stop {target : List Char}
    (hentry : k.lstat (join root (resolved ++ [part])) = some (.link target)) :
    resolveLoop k root followFinal 0 resolved (part :: pending) =
      ⟨resolved ++ [part], .gaveUp⟩ := by
  rw [resolveLoop_eq, resolveTo, if_neg hpart.dot, if_neg hpart.dotdot, if_neg (goes_on hmore),
    hentry]
  rfl

end Turns

/-! ## The walk of a path, by the links on its way -/

/-- From the directory `dir` below the root, `rest` leads over `n` links to `place`: to its
end, or (the flag) to a link that comes next. A link without a target is passed like a
name, and a name where nothing is like any other. -/
inductive Walks (k : HostFiles) (root : List Char) (followFinal : Bool) :
    Nat → List Name → List Name → List Name → Bool → Prop
  | ends {dir} : Walks k root followFinal 0 dir [] dir false
  | last {dir c} : IsName c → followFinal = false →
      Walks k root followFinal 0 dir [c] (dir ++ [c]) false
  | stops {dir c rest target} : IsName c → (followFinal = true ∨ rest ≠ []) →
      k.lstat (join root (dir ++ [c])) = some (.link target) →
      Walks k root followFinal 0 dir (c :: rest) (dir ++ [c]) true
  | dot {n dir rest place stopped} : Walks k root followFinal n dir rest place stopped →
      Walks k root followFinal n dir (['.'] :: rest) place stopped
  | dotdot {n dir rest place stopped} : Walks k root followFinal n dir.dropLast rest place stopped →
      Walks k root followFinal n dir (['.', '.'] :: rest) place stopped
  | plain {n dir c rest place stopped} : IsName c → (followFinal = true ∨ rest ≠ []) →
      (∀ target, k.lstat (join root (dir ++ [c])) ≠ some (.link target)) →
      Walks k root followFinal n (dir ++ [c]) rest place stopped →
      Walks k root followFinal n dir (c :: rest) place stopped
  | idle {n dir c rest place stopped} : IsName c → (followFinal = true ∨ rest ≠ []) →
      k.lstat (join root (dir ++ [c])) = some (.link []) →
      Walks k root followFinal n (dir ++ [c]) rest place stopped →
      Walks k root followFinal (n + 1) dir (c :: rest) place stopped
  | link {n dir c rest target place stopped} : IsName c → (followFinal = true ∨ rest ≠ []) →
      k.lstat (join root (dir ++ [c])) = some (.link target) → target ≠ [] →
      Walks k root followFinal n (if absolute target then [] else dir) (components target ++ rest)
        place stopped → Walks k root followFinal (n + 1) dir (c :: rest) place stopped

/-- The path's walk ends at the place after at most forty links, or has a forty-first to
follow there. -/
def Comes (k : HostFiles) (root path : List Char) (followFinal : Bool) (place : List Name)
    (stopped : Bool) : Prop :=
  ∃ n ≤ 40, (stopped = true → n = 40) ∧
  Walks k root followFinal n [] (components path) place stopped

theorem Walks.resolveLoop {n hops : Nat} {dir rest place : List Name} {stopped : Bool}
    (h : Walks k root followFinal n dir rest place stopped) (hle : n ≤ hops)
    (hstop : stopped = true → n = hops) :
    (resolveLoop k root followFinal hops dir rest).parts = place ∧
    ((resolveLoop k root followFinal hops dir rest).exit = .gaveUp ↔ stopped = true) := by
  induction h generalizing hops with
  | ends => simp [loop_nil]
  | last hc hfinal => simp [loop_last hc hfinal]
  | stops hc hmore hentry =>
    obtain rfl := hstop rfl
    simp [loop_stop hc hmore hentry]
  | dot _ ih =>
    rw [loop_dot]
    exact ih hle hstop
  | dotdot _ ih =>
    rw [loop_dotdot]
    exact ih hle hstop
  | plain hc hmore hentry _ ih =>
    rw [loop_plain hc hmore hentry]
    exact ih hle hstop
  | idle hc hmore hentry _ ih =>
    obtain ⟨hops, rfl⟩ : ∃ left, hops = left + 1 := ⟨hops - 1, by omega⟩
    rw [loop_idle hc hmore hentry]
    exact ih (Nat.le_of_succ_le_succ hle) fun h => Nat.succ.inj (hstop h)
  | link hc hmore hentry hne _ ih =>
    obtain ⟨hops, rfl⟩ : ∃ left, hops = left + 1 := ⟨hops - 1, by omega⟩
    rw [loop_link hc hmore hne hentry]
    exact ih (Nat.le_of_succ_le_succ hle) fun h => Nat.succ.inj (hstop h)

/-- Every path has a walk, as far as a number of links goes. -/
theorem exists_walks (k : HostFiles) (root : List Char) (followFinal : Bool) (hops : Nat) :
    ∀ (rest : List Name), (∀ c ∈ rest, IsPart c) → ∀ dir, ∃ n place stopped, n ≤ hops ∧
    (stopped = true → n = hops) ∧ Walks k root followFinal n dir rest place stopped := by
  induction hops using Nat.strong_induction_on with
  | _ hops fewer =>
    intro rest
    induction rest with
    | nil => exact fun _ dir => ⟨0, dir, false, Nat.zero_le _, nofun, .ends⟩
    | cons c rest ih =>
      intro hparts dir
      have hrest := fun c hc => hparts c (List.mem_cons_of_mem _ hc)
      by_cases hdot : c = ['.']
      · obtain ⟨n, place, stopped, hle, hstop, hwalks⟩ := ih hrest dir
        exact ⟨n, place, stopped, hle, hstop, hdot ▸ hwalks.dot⟩
      by_cases hdots : c = ['.', '.']
      · obtain ⟨n, place, stopped, hle, hstop, hwalks⟩ := ih hrest dir.dropLast
        exact ⟨n, place, stopped, hle, hstop, hdots ▸ hwalks.dotdot⟩
      obtain ⟨hne, hslash⟩ := hparts c List.mem_cons_self
      have hc : IsName c := ⟨hne, hslash, hdot, hdots⟩
      by_cases hmore : followFinal = true ∨ rest ≠ []
      · by_cases hlink : ∃ target, k.lstat (join root (dir ++ [c])) = some (.link target)
        · obtain ⟨target, hentry⟩ := hlink
          cases hops with
          | zero => exact ⟨0, _, true, le_rfl, fun _ => rfl, .stops hc hmore hentry⟩
          | succ hops =>
            have hless := fewer hops (Nat.lt_succ_self hops)
            by_cases hempty : target = []
            · subst hempty
              obtain ⟨n, place, stopped, hle, hstop, hwalks⟩ := hless rest hrest (dir ++ [c])
              exact ⟨n + 1, place, stopped, Nat.succ_le_succ hle, fun h => congrArg _ (hstop h),
                hwalks.idle hc hmore hentry⟩
            · have htarget : ∀ c ∈ components target ++ rest, IsPart c := by
                intro c hmem
                rcases List.mem_append.mp hmem with hold | hnew
                · exact isPart_of_mem_split (by rwa [split_eq_components])
                · exact hrest c hnew
              obtain ⟨n, place, stopped, hle, hstop, hwalks⟩ := hless _ htarget
                (if absolute target then [] else dir)
              exact ⟨n + 1, place, stopped, Nat.succ_le_succ hle, fun h => congrArg _ (hstop h),
                hwalks.link hc hmore hentry hempty⟩
        · obtain ⟨n, place, stopped, hle, hstop, hwalks⟩ := ih hrest (dir ++ [c])
          exact ⟨n, place, stopped, hle, hstop,
            hwalks.plain hc hmore fun target htarget => hlink ⟨target, htarget⟩⟩
      · obtain ⟨hfinal, hlast⟩ := not_or.mp hmore
        obtain rfl := not_not.mp hlast
        exact ⟨0, _, false, Nat.zero_le _, nofun, .last hc (Bool.eq_false_iff.mpr hfinal)⟩

theorem comes_iff {path : List Char} {place : List Name} {stopped : Bool} :
    Comes k root path followFinal place stopped ↔
    (resolveParts k root path followFinal).parts = place ∧
    ((resolveParts k root path followFinal).exit = .gaveUp ↔ stopped = true) := by
  unfold Comes
  rw [← split_eq_components]
  constructor
  · rintro ⟨n, hle, hstop, hwalks⟩
    exact hwalks.resolveLoop hle hstop
  · intro hout
    obtain ⟨n, _, stopped', hle, hstop, hwalks⟩ := exists_walks k root followFinal 40
      (split path) (fun c => isPart_of_mem_split) []
    obtain ⟨hplace, hexit⟩ := hwalks.resolveLoop hle hstop
    obtain rfl := hplace.symm.trans hout.1
    obtain rfl : stopped' = stopped := Bool.eq_iff_iff.mpr (hexit.symm.trans hout.2)
    exact ⟨n, hle, hstop, hwalks⟩

theorem exists_comes (k : HostFiles) (root path : List Char) (followFinal : Bool) :
    ∃ place stopped, Comes k root path followFinal place stopped :=
  ⟨_, decide ((resolveParts k root path followFinal).exit = .gaveUp), comes_iff.mpr ⟨rfl, by simp⟩⟩

/-- Where a walk gets to: a place of plain names, with nothing to follow before the last of
them, nor there if it is followed and the walk was not stopped by it. -/
structure Lands (k : HostFiles) (root : List Char) (followFinal : Bool) (place : List Name)
    (stopped : Bool) : Prop where
  names : ∀ c ∈ place, IsName c
  before : k.Settled root place.dropLast
  done : stopped = false → followFinal = true → k.Settled root place
  stopped : stopped = true → place ≠ [] ∧ ∃ target, k.lstat (join root place) = some (.link target)

theorem Walks.lands {n : Nat} {dir rest place : List Name} {stopped : Bool}
    (h : Walks k root followFinal n dir rest place stopped) :
    (∀ c ∈ dir, IsName c) → k.Settled root dir → Lands k root followFinal place stopped := by
  have hcons : ∀ {dir : List Name} {c}, (∀ c ∈ dir, IsName c) → IsName c →
      ∀ d ∈ dir ++ [c], IsName d := by
    intro dir c hdir hc d hd
    rcases List.mem_append.mp hd with hd | hd
    · exact hdir d hd
    · rw [List.mem_singleton.mp hd]
      exact hc
  induction h with
  | ends => exact fun hnames hs => ⟨hnames, hs.dropLast, fun _ _ => hs, nofun⟩
  | last hc hfinal =>
    intro hnames hs
    refine ⟨hcons hnames hc, by rwa [List.dropLast_concat], fun _ h => ?_, nofun⟩
    rw [hfinal] at h
    cases h
  | stops hc _ hentry =>
    intro hnames hs
    exact ⟨hcons hnames hc, by rwa [List.dropLast_concat], nofun, fun _ => ⟨by simp, _, hentry⟩⟩
  | dot _ ih => exact ih
  | dotdot _ ih =>
    exact fun hnames hs => ih (fun c hc => hnames c (List.mem_of_mem_dropLast hc)) hs.dropLast
  | plain hc _ hentry _ ih =>
    exact fun hnames hs =>
      ih (hcons hnames hc) (hs.append fun target ht => absurd ht (hentry target))
  | idle hc _ hentry _ ih =>
    intro hnames hs
    refine ih (hcons hnames hc) (hs.append fun target ht => ?_)
    rw [hentry] at ht
    cases ht
    rfl
  | link _ _ _ _ _ ih =>
    intro hnames hs
    split at ih
    · exact ih (fun _ hd => nomatch hd) settled_nil
    · exact ih hnames hs

theorem Comes.lands {path : List Char} {place : List Name} {stopped : Bool}
    (h : Comes k root path followFinal place stopped) : Lands k root followFinal place stopped := by
  obtain ⟨n, -, -, hwalks⟩ := h
  exact hwalks.lands (fun _ hc => nomatch hc) settled_nil

/-! ## What comes out -/

/-- A path below the guest's root, by plain names, in which a call finds no link
to follow, so that it ends below the place the root is at. -/
def Contained (k : HostFiles) (root : List Char) (followFinal : Bool) (path : List Char) : Prop :=
  ∃ parts, path = join root parts ∧ (∀ c ∈ parts, IsName c) ∧
  (∀ p, p ≠ [] → p <+: followed (!followFinal) parts →
    ∀ target, k.lstat (join root p) ≠ some (.link target)) ∧
  (parts ≠ [] → ∀ place entry, k.namei (!followFinal) path = .at place entry →
    ∃ top e, k.namei false root = .at top e ∧ top <+: place)

theorem Lands.settled {place : List Name} {stopped : Bool}
    (h : Lands k root followFinal place stopped) (hend : followFinal = true → stopped = false) :
    k.Settled root (followed (!followFinal) place) := by
  cases followFinal with
  | false => exact h.before
  | true => exact h.done (hend rfl) rfl

/-- The host can be handed the paths whose walk ends within forty links, and a forty-first
only where the last component is not followed, if no link without a target is left in the
place. -/
theorem resolveGuestPathOnHost_contained_iff (k : HostFiles) {root : List Char}
    (hroot : root ≠ []) (path : List Char) (followFinal : Bool) :
    Contained k root followFinal (resolveGuestPathOnHost k root path followFinal) ↔
    ∃ place stopped, Comes k root path followFinal place stopped ∧
    (followFinal = true → stopped = false) ∧
    ∀ p, p ≠ [] → p <+: followed (!followFinal) place → k.readlink (join root p) ≠ some [] := by
  obtain ⟨place, stopped, hcomes⟩ := exists_comes k root path followFinal
  have hlands := hcomes.lands
  have hparts := (comes_iff.mp hcomes).1
  rw [resolveGuestPathOnHost_eq hroot, hparts]
  constructor
  · intro ⟨parts, heq, hnames, hlinks, _⟩
    obtain rfl := join_inj hlands.names hnames heq
    refine ⟨place, stopped, hcomes, fun hfollow => ?_, fun p hne hp hempty => ?_⟩
    · refine Bool.eq_false_iff.mpr fun hstopped => ?_
      obtain ⟨hne, target, hentry⟩ := hlands.stopped hstopped
      subst hfollow
      exact hlinks place hne List.prefix_rfl target hentry
    · unfold readlink at hempty
      split at hempty
      next target hentry => exact hlinks p hne hp target hentry
      · cases hempty
  · rintro ⟨_, _, hcomes', hend, hempty⟩
    obtain rfl := hparts.symm.trans (comes_iff.mp hcomes').1
    have hs := hcomes'.lands.settled hend
    refine ⟨place, rfl, hlands.names, fun p hne hp target hentry => ?_,
      fun hne place entry hw => settled_under hroot hne hlands.names hs hw⟩
    have h0 := hs p hne hp target hentry
    subst h0
    exact hempty p hne hp (readlink_of_lstat hentry)

/-- A host with the guest's root in `/g`. In there, `d` is a link to the root
itself and `e` one to `/x`, which the host has too. -/
def sample : HostFiles where
  tree :=
    { entries := [([['g']], .dir), ([['g'], ['d']], .link ['.']),
        ([['g'], ['e']], .link ['/', 'x']), ([['x']], .file)]
      named := by decide
      once := by decide
      parents := by decide }
  cwd := []
  maxLinks := 32

def longWay : List Char := (List.replicate 40 ['d', '/']).flatten ++ ['e']

theorem resolveGuestPathOnHost_escapes : resolveGuestPathOnHost sample ['/', 'g'] longWay true =
    ['/', 'g', '/', 'e'] ∧ sample.namei false ['/', 'g', '/', 'e'] = .at [['x']] (some .file) ∧
    ¬ Contained sample ['/', 'g'] true (resolveGuestPathOnHost sample ['/', 'g'] longWay true) := by
  have hpath : resolveGuestPathOnHost sample ['/', 'g'] longWay true = ['/', 'g', '/', 'e'] := by
    decide
  refine ⟨hpath, by decide, ?_⟩
  intro ⟨parts, heq, hnames, hlinks, _⟩
  obtain rfl : [['e']] = parts := join_inj (by decide) hnames (heq)
  exact hlinks [['e']] (by decide) List.prefix_rfl ['/', 'x'] (by decide)

theorem resolveGuestPathOnHost_contained_short :
    resolveGuestPathOnHost sample ['/', 'g'] ['d', '/', 'e'] true = ['/', 'g', '/', 'x'] ∧
    Contained sample ['/', 'g'] true
      (resolveGuestPathOnHost sample ['/', 'g'] ['d', '/', 'e'] true) := by
  refine ⟨by decide, (resolveGuestPathOnHost_contained_iff sample (by decide) _ _).mpr
    ⟨[['x']], false, comes_iff.mpr ⟨by decide, by decide⟩, fun _ => rfl, ?_⟩⟩
  · intro p hne hp hempty
    rcases List.prefix_cons_iff.mp hp with rfl | ⟨q, rfl, hq⟩
    · exact hne rfl
    · rw [List.prefix_nil.mp hq] at hempty
      exact absurd hempty (by decide)

/-! ## Asking the host about a place below the root -/

variable {top : Path}

def below (k : HostFiles) (top : Path) (p : Path) : Option Entry := k.tree.find (top ++ p)

theorem namei_plain (hroot : k.namei false root = .at top (some .dir)) {nofollow : Bool}
    {parts : List Name} (hne : parts ≠ []) (h : Plain (k.below top) parts)
    (hlast : ∀ target, k.below top parts = some (.link target) → nofollow = true) :
    k.namei nofollow (join root parts) = .at (top ++ parts) (k.below top parts) := by
  have hroot' : root ≠ [] := by
    rintro rfl
    cases hroot
  rw [namei_join hroot' nofollow h.names]
  unfold namei at hroot
  rw [if_neg hroot'] at hroot
  obtain ⟨_, hleft⟩ := walk_through hroot
  rw [hleft nofollow parts hne]
  exact walk_plain hne h.names h.dirs hlast

theorem lstat_plain (hroot : k.namei false root = .at top (some .dir)) {dir : List Name}
    (h : PlainDir (k.below top) dir) {c : Name} (hc : IsName c) :
    k.lstat (join root (dir ++ [c])) = k.below top (dir ++ [c]) := by
  unfold lstat
  rw [namei_plain hroot (by simp) (h.plain.append h.dir hc) fun _ _ => rfl]
  rfl

/-! ## The loop follows the derivation -/

structure Arrives (k : HostFiles) (top : Path) (followFinal : Bool) (place : Path)
    (out : Resolved) : Prop where
  parts : out.parts = place
  plain : Plain (k.below top) place
  final : place ≠ [] → ∀ target, k.below top place = some (.link target) → (!followFinal) = true

theorem resolveLoop_leads (hroot : k.namei false root = .at top (some .dir)) {n : Nat}
    {dir place : Path} {names : List Name}
    (h : Leads (k.below top) (!followFinal) n dir names place) :
    ∀ {hops : Nat}, n ≤ hops → PlainDir (k.below top) dir →
    Arrives k top followFinal place (resolveLoop k root followFinal hops dir names) := by
  induction h with
  | here =>
    intro hops _ hdir
    rw [loop_nil]
    refine ⟨rfl, hdir.plain, fun hne target htarget => ?_⟩
    rw [hdir.dir hne] at htarget
    cases htarget
  | dot _ ih =>
    intro hops hn hdir
    rw [loop_dot]
    exact ih hn hdir
  | dotdot _ ih =>
    intro hops hn hdir
    rw [loop_dotdot]
    exact ih hn hdir.dropLast
  | @down n _ _ c rest hc hfind _ ih =>
    intro hops hn hdir
    have harrives := ih hn ⟨hdir.plain.append hdir.dir hc, fun _ => hfind⟩
    by_cases hmore : followFinal = true ∨ rest ≠ []
    · rw [loop_plain hc hmore fun target htarget => ?_]
      · exact harrives
      · rw [lstat_plain hroot hdir hc, hfind] at htarget
        cases htarget
    · -- The directory is the last component, and the loop does not look at it.
      obtain ⟨hfinal, hrest⟩ := not_or.mp hmore
      obtain rfl := not_not.mp hrest
      rw [loop_nil] at harrives
      rw [loop_last hc (Bool.not_eq_true _ ▸ hfinal)]
      exact ⟨harrives.parts, harrives.plain, harrives.final⟩
  | @last _ c hc hlast =>
    intro hops _ hdir
    have hplain := hdir.plain.append hdir.dir hc
    cases followFinal with
    | false =>
      rw [loop_last hc rfl]
      exact ⟨rfl, hplain, fun _ _ _ => rfl⟩
    | true =>
      rw [loop_plain hc (.inl rfl) fun target htarget => ?_, loop_nil]
      · exact ⟨rfl, hplain, fun _ => hlast⟩
      · rw [lstat_plain hroot hdir hc] at htarget
        exact Bool.false_ne_true (hlast target htarget)
  | @link n _ _ c rest _ hc hfind hne hmore _ ih =>
    intro hops hn hdir
    obtain ⟨hops, rfl⟩ : ∃ left, hops = left + 1 := ⟨hops - 1, by omega⟩
    have hmore' : followFinal = true ∨ rest ≠ [] := by
      cases followFinal with
      | false => exact .inr fun h => hmore ⟨h, rfl⟩
      | true => exact .inl rfl
    rw [loop_link hc hmore' hne ((lstat_plain hroot hdir hc).trans hfind)]
    refine ih (by omega) ?_
    split
    · exact plainDir_nil _
    · exact hdir

/-- The host's path names the guest's place. The guest's root has no last
component for a call to leave alone, so there the host is asked where it leads. -/
def Names (k : HostFiles) (top : Path) (nofollow : Bool) (path : List Char) (place : Path) : Prop :=
  (place ≠ [] → k.namei nofollow path = .at (top ++ place) (k.below top place)) ∧
  (place = [] → k.namei false path = .at top (some .dir))

/-- What a process chrooted at the guest's root finds at a path, over forty links
at most, is what the host finds at the path that comes out. -/
theorem resolveGuestPathOnHost_chroot (k : HostFiles) {root : List Char} {top : Path}
    (hroot : k.namei false root = .at top (some .dir)) (path : List Char)
    (followFinal : Bool) {n : Nat} (hn : n ≤ kMaxSymlinkHops) {place : Path}
    (h : Leads (k.below top) (!followFinal) n [] (components path) place) :
    k.Names top (!followFinal) (resolveGuestPathOnHost k root path followFinal) place := by
  have hroot' : root ≠ [] := by
    rintro rfl
    cases hroot
  have harrives := resolveLoop_leads hroot h hn (plainDir_nil _)
  rw [← split_eq_components] at harrives
  have hparts : (resolveParts k root path followFinal).parts = place := harrives.parts
  rw [resolveGuestPathOnHost_eq hroot', hparts]
  refine ⟨fun hne => ?_, ?_⟩
  · exact namei_plain hroot hne harrives.plain (harrives.final hne)
  · rintro rfl
    exact hroot

def linked : HostFiles where
  tree :=
    { entries := [([['g']], .dir), ([['g'], ['a']], .dir), ([['g'], ['a'], ['b']], .dir),
        ([['g'], ['l']], .link ['/', 'a', '/', 'b'])]
      named := by decide
      once := by decide
      parents := by decide }
  cwd := []
  maxLinks := 32

theorem linked_find_l : linked.below [['g']] [['l']] = some (.link ['/', 'a', '/', 'b']) := by
  decide

theorem linked_leads : Leads (linked.below [['g']]) false 1 [] [['l'], ['.', '.']] [['a']] :=
  .link (by decide) linked_find_l (by decide) (by decide)
    (.down (by decide) (by decide) (.down (by decide) (by decide) (.dotdot .here)))

theorem linked_root : linked.namei false ['/', 'g'] = .at [['g']] (some .dir) := by decide

theorem resolveGuestPathOnHost_chroot_linked :
    linked.namei false (resolveGuestPathOnHost linked ['/', 'g'] ['/', 'l', '/', '.', '.'] true) =
      .at [['g'], ['a']] (some .dir) := by
  have hleads : Leads (linked.below [['g']]) (!true) 1 []
      (components ['/', 'l', '/', '.', '.']) [['a']] := linked_leads
  exact (resolveGuestPathOnHost_chroot linked linked_root _ true (by decide) hleads).1 (by decide)

end HostFiles

end Fathom
