import Mathlib.Data.List.Infix
import Mathlib.Data.List.Nodup

/-!
# Looking up a path

What a POSIX kernel does with a path: a finite tree of files, directories and symbolic
links, and a walk through it component by component.
-/

namespace Fathom.Lib.Namei

abbrev Name := List Char

/-- Where something is, from the root down. -/
abbrev Path := List Name

/-! ## Paths as text -/

/-- The components of a path, as the kernel takes them: what stands between
slashes, where anything does. -/
def components (path : List Char) : List Name := (path.splitOn '/').filter (· ≠ [])

def absolute (path : List Char) : Bool := path.head? = some '/'

structure IsName (c : Name) : Prop where
  nonempty : c ≠ []
  slash : '/' ∉ c
  dot : c ≠ ['.']
  dotdot : c ≠ ['.', '.']

instance (c : Name) : Decidable (IsName c) :=
  decidable_of_iff (c ≠ [] ∧ '/' ∉ c ∧ c ≠ ['.'] ∧ c ≠ ['.', '.'])
    ⟨fun h => ⟨h.1, h.2.1, h.2.2.1, h.2.2.2⟩, fun h => ⟨h.1, h.2, h.3, h.4⟩⟩

theorem components_append (a b : List Char) :
    components (a ++ '/' :: b) = components a ++ components b := by
  unfold components
  rw [List.splitOn_append_cons_self, List.filter_append]

theorem components_of_slash {c : Name} (hne : c ≠ []) (hs : '/' ∉ c) : components c = [c] := by
  unfold components
  rw [List.splitOn_eq_singleton hs, List.filter_cons_of_pos (by simpa using hne), List.filter_nil]

theorem absolute_append {a : List Char} (hne : a ≠ []) (b : List Char) :
    absolute (a ++ b) = absolute a := by
  cases a with
  | nil => exact absurd rfl hne
  | cons c _ => rfl

/-! ## The tree -/

inductive Entry where
  | file
  | dir
  | link (target : List Char)
  deriving DecidableEq

/-- A finite tree below its root: every entry has a name, once, in a directory
that is there. -/
structure Tree where
  entries : List (Path × Entry)
  named : ∀ e ∈ entries, e.1 ≠ [] ∧ ∀ c ∈ e.1, IsName c
  once : (entries.map Prod.fst).Nodup
  parents : ∀ e ∈ entries, e.1.dropLast = [] ∨ (e.1.dropLast, Entry.dir) ∈ entries

def Tree.find (t : Tree) (p : Path) : Option Entry :=
  if p = [] then some .dir else t.entries.lookup p

/-! ## The walk -/

inductive Errno where
  | noent
  | notdir
  | loop
  deriving DecidableEq

/-- The place a path leads to, with what is there: nothing, when only the last
component is missing. -/
inductive Outcome where
  | at (place : Path) (entry : Option Entry)
  | error (code : Errno)
  deriving DecidableEq

def Outcome.entry : Outcome → Option Entry
  | .at _ entry => entry
  | .error _ => none

section

variable (t : Tree) (nofollow : Bool)

def walkTo (onLink : Path → List Name → Outcome) : Path → List Name → Outcome
  | dir, [] => .at dir (t.find dir)
  | dir, c :: rest =>
    if c = ['.'] then walkTo onLink dir rest
    else if c = ['.', '.'] then walkTo onLink dir.dropLast rest
    else
      match t.find (dir ++ [c]) with
      | none => if rest = [] then .at (dir ++ [c]) none else .error .noent
      | some .file => if rest = [] then .at (dir ++ [c]) (some .file) else .error .notdir
      | some .dir => walkTo onLink (dir ++ [c]) rest
      | some (.link target) =>
        if rest = [] ∧ nofollow = true then .at (dir ++ [c]) (some (.link target))
        else onLink (if absolute target then [] else dir) (components target ++ rest)

def walk : Nat → Path → List Name → Outcome
  | 0 => walkTo t nofollow fun _ _ => .error .loop
  | budget + 1 => walkTo t nofollow (walk budget)

def follow : Nat → Path → List Name → Outcome
  | 0 => fun _ _ => .error .loop
  | budget + 1 => walk t nofollow budget

theorem walk_eq (budget : Nat) :
    walk t nofollow budget = walkTo t nofollow (follow t nofollow budget) := by
  cases budget with
  | zero => rfl
  | succ _ => rfl

end

section Equations

variable {t : Tree} {nofollow : Bool} {budget : Nat} {dir : Path}

@[simp] theorem walk_nil : walk t nofollow budget dir [] = .at dir (t.find dir) := by
  rw [walk_eq, walkTo]

theorem walk_dot (rest : List Name) :
    walk t nofollow budget dir (['.'] :: rest) = walk t nofollow budget dir rest := by
  rw [walk_eq, walkTo, if_pos rfl]

theorem walk_dotdot (rest : List Name) : walk t nofollow budget dir (['.', '.'] :: rest) =
      walk t nofollow budget dir.dropLast rest := by
  rw [walk_eq, walkTo, if_neg (by decide), if_pos rfl]

theorem walk_name {c : Name} (h1 : c ≠ ['.']) (h2 : c ≠ ['.', '.']) (rest : List Name) :
    walk t nofollow budget dir (c :: rest) =
      match t.find (dir ++ [c]) with
      | none => if rest = [] then .at (dir ++ [c]) none else .error .noent
      | some .file => if rest = [] then .at (dir ++ [c]) (some .file) else .error .notdir
      | some .dir => walk t nofollow budget (dir ++ [c]) rest
      | some (.link target) =>
        if rest = [] ∧ nofollow = true then .at (dir ++ [c]) (some (.link target))
        else follow t nofollow budget (if absolute target then [] else dir)
          (components target ++ rest) := by
  rw [walk_eq, walkTo, if_neg h1, if_neg h2]

variable {place : Path} {names : List Name}

theorem walkTo_entry {onLink : Path → List Name → Outcome} {entry : Option Entry}
    (hlink : ∀ dir names, onLink dir names = .at place entry → entry = t.find place)
    (h : walkTo t nofollow onLink dir names = .at place entry) : entry = t.find place := by
  induction names generalizing dir with
  | nil =>
    cases h
    rfl
  | cons c _ ih =>
    rw [walkTo] at h
    split at h
    · exact ih h
    · split at h
      · exact ih h
      · cases hfind : t.find (dir ++ [c]) with
        | none =>
          simp only [hfind] at h
          split at h
          · cases h
            exact hfind.symm
          · cases h
        | some found =>
          cases found with
          | file =>
            simp only [hfind] at h
            split at h
            · cases h
              exact hfind.symm
            · cases h
          | dir =>
            rw [hfind] at h
            exact ih h
          | link _ =>
            simp only [hfind] at h
            split at h
            · cases h
              exact hfind.symm
            · exact hlink _ _ h

theorem walk_entry {entry : Option Entry} (h : walk t nofollow budget dir names = .at place entry) :
    entry = t.find place := by
  induction budget generalizing dir names with
  | zero =>
    refine walkTo_entry (fun _ _ hlink => ?_) h
    cases hlink
  | succ _ ih => exact walkTo_entry (fun _ _ hlink => ih hlink) h

theorem walkTo_present {onFollow onStop : Path → List Name → Outcome}
    (hlink : ∀ dir names place entry, onFollow dir names = .at place (some entry) →
      ∃ place' entry', onStop dir names = .at place' (some entry')) {entry : Entry}
    (h : walkTo t false onFollow dir names = .at place (some entry)) :
    ∃ place' entry', walkTo t true onStop dir names = .at place' (some entry') := by
  induction names generalizing dir with
  | nil =>
    rw [walkTo] at h ⊢
    injection h with _ hentry
    exact ⟨dir, entry, by rw [hentry]⟩
  | cons c _ ih =>
    rw [walkTo] at h ⊢
    split at h
    next h1 =>
      rw [if_pos h1]
      exact ih h
    next h1 =>
      rw [if_neg h1]
      split at h
      next h2 =>
        rw [if_pos h2]
        exact ih h
      next h2 =>
        rw [if_neg h2]
        cases hfind : t.find (dir ++ [c]) with
        | none =>
          simp only [hfind] at h
          split at h <;> cases h
        | some found =>
          cases found with
          | file =>
            simp only [hfind] at h ⊢
            split at h
            next hrest =>
              rw [if_pos hrest]
              exact ⟨_, _, rfl⟩
            · cases h
          | dir =>
            simp only [hfind] at h ⊢
            exact ih h
          | link _ =>
            simp only [hfind, Bool.false_eq_true, and_false, if_false] at h ⊢
            split
            · exact ⟨_, _, rfl⟩
            · exact hlink _ _ _ _ h

theorem walk_present {entry : Entry} (h : walk t false budget dir names = .at place (some entry)) :
    ∃ place' entry', walk t true budget dir names = .at place' (some entry') := by
  induction budget generalizing dir names place entry with
  | zero =>
    refine walkTo_present (fun _ _ _ _ hlink => ?_) h
    cases hlink
  | succ _ ih => exact walkTo_present (fun _ _ _ _ hlink => ih hlink) h

theorem Tree.find_file (h : t.find place = some .file) : (place, Entry.file) ∈ t.entries := by
  unfold Tree.find at h
  split at h
  · cases h
  · obtain ⟨before, _, heq, _⟩ := List.lookup_eq_some_iff.mp h
    rw [heq]
    exact List.mem_append_right before List.mem_cons_self

end Equations

/-! ## Cutting a walk in two -/

/-- The first components lead to a place, at some cost, or the walk ends with an
error on them, whatever comes after. -/
def Cuts (t : Tree) (go : Bool → List Name → Outcome) (first : List Name) : Prop :=
  (∃ code, ∀ nofollow rest, rest ≠ [] → go nofollow (first ++ rest) = .error code) ∨
  ∃ left top, go false first = .at top (t.find top) ∧
  ∀ nofollow rest, rest ≠ [] → go nofollow (first ++ rest) = walk t nofollow left top rest

variable {t : Tree}

theorem Cuts.congr {go go' : Bool → List Name → Outcome} {first first' : List Name}
    (h : Cuts t go first) (heq : ∀ nofollow rest, nofollow = false ∨ rest ≠ [] →
      go' nofollow (first' ++ rest) = go nofollow (first ++ rest)) : Cuts t go' first' := by
  rcases h with ⟨code, hcode⟩ | ⟨left, top, htop, hrest⟩
  · refine .inl ⟨code, fun nofollow rest hne => ?_⟩
    rw [heq nofollow rest (.inr hne)]
    exact hcode nofollow rest hne
  · refine .inr ⟨left, top, ?_, fun nofollow rest hne => ?_⟩
    · have := heq false [] (.inl rfl)
      rw [List.append_nil, List.append_nil] at this
      rw [this]
      exact htop
    · rw [heq nofollow rest (.inr hne)]
      exact hrest nofollow rest hne

variable {budget : Nat}

theorem cuts_cons {c : Name} {first : List Name}
    (hfollow : ∀ dir first, Cuts t (fun nofollow => follow t nofollow budget dir) first)
    (hwalk : ∀ dir, Cuts t (fun nofollow => walk t nofollow budget dir) first) (dir : Path) :
    Cuts t (fun nofollow => walk t nofollow budget dir) (c :: first) := by
  by_cases h1 : c = ['.']
  · subst h1
    exact (hwalk dir).congr fun nofollow rest _ => walk_dot _
  by_cases h2 : c = ['.', '.']
  · subst h2
    exact (hwalk dir.dropLast).congr fun nofollow rest _ => walk_dotdot _
  have hstep : ∀ nofollow rest, walk t nofollow budget dir ((c :: first) ++ rest) = _ :=
    fun nofollow rest => walk_name h1 h2 (first ++ rest)
  cases hfind : t.find (dir ++ [c]) with
  | none =>
    refine .inl ⟨.noent, fun nofollow rest hne => (hstep nofollow rest).trans ?_⟩
    rw [hfind]
    exact if_neg fun h => hne (List.append_eq_nil_iff.mp h).2
  | some entry =>
    cases entry with
    | file =>
      refine .inl ⟨.notdir, fun nofollow rest hne => (hstep nofollow rest).trans ?_⟩
      rw [hfind]
      exact if_neg fun h => hne (List.append_eq_nil_iff.mp h).2
    | dir =>
      refine (hwalk (dir ++ [c])).congr fun nofollow rest _ => (hstep nofollow rest).trans ?_
      rw [hfind]
    | link target =>
      refine (hfollow (if absolute target then [] else dir) (components target ++ first)).congr
        fun nofollow rest hor => (hstep nofollow rest).trans ?_
      rw [hfind, List.append_assoc]
      refine if_neg fun h => ?_
      rcases hor with hno | hne
      · rw [hno] at h
        exact Bool.false_ne_true h.2
      · exact hne (List.append_eq_nil_iff.mp h.1).2

theorem cuts_walk
    (hfollow : ∀ dir first, Cuts t (fun nofollow => follow t nofollow budget dir) first)
    (first : List Name) : ∀ dir, Cuts t (fun nofollow => walk t nofollow budget dir) first := by
  induction first with
  | nil =>
    intro dir
    exact .inr ⟨budget, dir, walk_nil, fun _ _ _ => rfl⟩
  | cons c _ ih => exact cuts_cons hfollow ih

theorem cuts_follow (t : Tree) (budget : Nat) : ∀ dir first,
    Cuts t (fun nofollow => follow t nofollow budget dir) first := by
  induction budget with
  | zero =>
    intro dir first
    exact .inl ⟨.loop, fun _ _ _ => rfl⟩
  | succ _ ih =>
    intro dir first
    exact cuts_walk ih first dir

theorem walk_append (t : Tree) (budget : Nat) (dir : Path) (first : List Name) :
    Cuts t (fun nofollow => walk t nofollow budget dir) first :=
  cuts_walk (cuts_follow t budget) first dir

def Through (t : Tree) (go : Bool → List Name → Outcome) (first : List Name) : Prop :=
  ∀ top, go false first = .at top (some .dir) →
  ∃ left, ∀ nofollow rest, rest ≠ [] → go nofollow (first ++ rest) = walk t nofollow left top rest

theorem through_walk
    (hfollow : ∀ dir first, Through t (fun nofollow => follow t nofollow budget dir) first)
    (first : List Name) : ∀ dir, Through t (fun nofollow => walk t nofollow budget dir) first := by
  induction first with
  | nil =>
    intro dir top h
    dsimp only at h
    rw [walk_nil] at h
    injection h with htop _
    subst htop
    exact ⟨budget, fun _ _ _ => rfl⟩
  | cons c first ih =>
    intro dir top h
    dsimp only at h
    by_cases h1 : c = ['.']
    · subst h1
      rw [walk_dot] at h
      obtain ⟨left, hleft⟩ := ih dir top h
      exact ⟨left, fun nofollow rest hne => (walk_dot _).trans (hleft nofollow rest hne)⟩
    by_cases h2 : c = ['.', '.']
    · subst h2
      rw [walk_dotdot] at h
      obtain ⟨left, hleft⟩ := ih dir.dropLast top h
      exact ⟨left, fun nofollow rest hne => (walk_dotdot _).trans (hleft nofollow rest hne)⟩
    have hstep : ∀ nofollow rest, walk t nofollow budget dir ((c :: first) ++ rest) = _ :=
      fun nofollow rest => walk_name h1 h2 (first ++ rest)
    rw [walk_name h1 h2] at h
    cases hfind : t.find (dir ++ [c]) with
    | none =>
      rw [hfind] at h
      dsimp only at h
      split at h <;> cases h
    | some entry =>
      rw [hfind] at h
      cases entry with
      | file =>
        dsimp only at h
        split at h <;> cases h
      | dir =>
        obtain ⟨left, hleft⟩ := ih (dir ++ [c]) top h
        refine ⟨left, fun nofollow rest hne => (hstep nofollow rest).trans ?_⟩
        rw [hfind]
        exact hleft nofollow rest hne
      | link _ =>
        dsimp only at h
        rw [if_neg fun h0 => Bool.false_ne_true h0.2] at h
        obtain ⟨left, hleft⟩ := hfollow _ _ top h
        refine ⟨left, fun nofollow rest hne => (hstep nofollow rest).trans ?_⟩
        rw [hfind]
        dsimp only
        rw [if_neg fun h0 => hne (List.append_eq_nil_iff.mp h0.1).2, ← List.append_assoc]
        exact hleft nofollow rest hne

theorem through_follow (t : Tree) (budget : Nat) : ∀ dir first,
    Through t (fun nofollow => follow t nofollow budget dir) first := by
  induction budget with
  | zero =>
    intro dir first top h
    cases h
  | succ _ ih =>
    intro dir first
    exact through_walk ih first dir

theorem walk_through {dir top : Path} {first : List Name}
    (h : walk t false budget dir first = .at top (some .dir)) : ∃ left, ∀ nofollow rest, rest ≠ [] →
    walk t nofollow budget dir (first ++ rest) = walk t nofollow left top rest :=
  through_walk (through_follow t budget) first dir top h

theorem walk_plain {nofollow : Bool} {names : List Name} :
    ∀ {dir : Path}, names ≠ [] → (∀ c ∈ names, IsName c) →
    (∀ q, q ≠ [] → q <+: names → q ≠ names → t.find (dir ++ q) = some .dir) →
    (∀ target, t.find (dir ++ names) = some (.link target) → nofollow = true) →
    walk t nofollow budget dir names = .at (dir ++ names) (t.find (dir ++ names)) := by
  induction names with
  | nil =>
    intro dir hne
    exact absurd rfl hne
  | cons c rest ih =>
    intro dir _ hnames hdirs hlast
    have hc := hnames c List.mem_cons_self
    rw [walk_name hc.dot hc.dotdot]
    by_cases hrest : rest = []
    · subst hrest
      cases hfind : t.find (dir ++ [c]) with
      | none => exact if_pos rfl
      | some entry =>
        cases entry with
        | file => exact if_pos rfl
        | dir => rw [walk_nil, hfind]
        | link target => exact if_pos ⟨rfl, hlast target hfind⟩
    · rw [hdirs [c] (List.cons_ne_nil _ _) (List.cons_prefix_cons.mpr ⟨rfl, List.nil_prefix⟩)
        fun h => hrest (List.cons.inj h).2.symm]
      have happ : ∀ q, dir ++ [c] ++ q = dir ++ c :: q := fun q => by simp
      rw [ih hrest (fun d hd => hnames d (List.mem_cons_of_mem _ hd)), happ]
      · intro q hq hpre hne
        rw [happ]
        exact hdirs (c :: q) (List.cons_ne_nil _ _) (List.cons_prefix_cons.mpr ⟨rfl, hpre⟩)
          fun h => hne (List.cons.inj h).2
      · rw [happ]
        exact hlast

/-! ## Resolution as a relation -/

/-- From `dir` the components lead to `place`, over so many links, for a process
that sees the entries `find`. Whatever is at the end may be missing. An empty
target names nothing, so no rule follows one. -/
inductive Leads (find : Path → Option Entry) (nofollow : Bool) :
    Nat → Path → List Name → Path → Prop
  | here {dir : Path} : Leads find nofollow 0 dir [] dir
  | dot {n : Nat} {dir place : Path} {rest : List Name} :
      Leads find nofollow n dir rest place → Leads find nofollow n dir (['.'] :: rest) place
  | dotdot {n : Nat} {dir place : Path} {rest : List Name} :
      Leads find nofollow n dir.dropLast rest place →
      Leads find nofollow n dir (['.', '.'] :: rest) place
  | down {n : Nat} {dir place : Path} {c : Name} {rest : List Name} : IsName c →
      find (dir ++ [c]) = some .dir → Leads find nofollow n (dir ++ [c]) rest place →
      Leads find nofollow n dir (c :: rest) place
  | last {dir : Path} {c : Name} : IsName c → (∀ target, find (dir ++ [c]) = some (.link target) →
      nofollow = true) → Leads find nofollow 0 dir [c] (dir ++ [c])
  | link {n : Nat} {dir place : Path} {c : Name} {rest : List Name} {target : List Char} :
      IsName c → find (dir ++ [c]) = some (.link target) → target ≠ [] →
      ¬ (rest = [] ∧ nofollow = true) →
      Leads find nofollow n (if absolute target then [] else dir) (components target ++ rest)
        place → Leads find nofollow (n + 1) dir (c :: rest) place

/-! ### Through directories -/

/-- Down to `parts` from the root there are plain names and directories, up to
the last. -/
structure Plain (find : Path → Option Entry) (parts : List Name) : Prop where
  names : ∀ c ∈ parts, IsName c
  dirs : ∀ q, q ≠ [] → q <+: parts → q ≠ parts → find q = some .dir

theorem plain_nil (find : Path → Option Entry) : Plain find [] :=
  ⟨fun _ h => (nomatch h), fun _ hne hp => absurd (List.prefix_nil.mp hp) hne⟩

theorem Plain.append {find : Path → Option Entry} {parts : List Name} (h : Plain find parts)
    (hdir : parts ≠ [] → find parts = some .dir) {c : Name} (hc : IsName c) :
    Plain find (parts ++ [c]) := by
  refine ⟨fun d hd => ?_, fun q hne hp hq => ?_⟩
  · rcases List.mem_append.mp hd with hd | hd
    · exact h.names d hd
    · rw [List.mem_singleton.mp hd]
      exact hc
  · have hpre := (List.prefix_concat_iff.mp hp).resolve_left hq
    by_cases heq : q = parts
    · rw [heq] at hne ⊢
      exact hdir hne
    · exact h.dirs q hne hpre heq

structure PlainDir (find : Path → Option Entry) (dir : List Name) : Prop where
  plain : Plain find dir
  dir : dir ≠ [] → find dir = some .dir

theorem PlainDir.dropLast {find : Path → Option Entry} {dir : List Name}
    (h : PlainDir find dir) : PlainDir find dir.dropLast := by
  have hsub := List.dropLast_prefix dir
  have hshort : ∀ q, q <+: dir.dropLast → q ≠ [] → q ≠ dir := by
    rintro q hq hne rfl
    have hlen := hq.length_le
    have hpos := List.length_pos_of_ne_nil hne
    rw [List.length_dropLast] at hlen
    omega
  refine ⟨⟨fun c hc => h.plain.names c (hsub.subset hc), fun q hne hp _ => ?_⟩, fun hne => ?_⟩
  · exact h.plain.dirs q hne (hp.trans hsub) (hshort q hp hne)
  · exact h.plain.dirs _ hne hsub (hshort _ List.prefix_rfl hne)

theorem plainDir_nil (find : Path → Option Entry) : PlainDir find [] :=
  ⟨plain_nil find, fun h => absurd rfl h⟩

section Leads

variable {find : Path → Option Entry} {nofollow : Bool} {n : Nat} {dir place : Path}
  {names : List Name}

theorem leads_nil (h : Leads find nofollow n dir [] place) : n = 0 ∧ place = dir := by
  cases h with
  | here => exact ⟨rfl, rfl⟩

theorem leads_dot (h : Leads find nofollow n dir (['.'] :: names) place) :
    Leads find nofollow n dir names place := by
  cases h with
  | dot h => exact h
  | down hc _ _ => exact absurd rfl hc.dot
  | last hc _ => exact absurd rfl hc.dot
  | link hc _ _ _ _ => exact absurd rfl hc.dot

theorem leads_dotdot (h : Leads find nofollow n dir (['.', '.'] :: names) place) :
    Leads find nofollow n dir.dropLast names place := by
  cases h with
  | dotdot h => exact h
  | down hc _ _ => exact absurd rfl hc.dotdot
  | last hc _ => exact absurd rfl hc.dotdot
  | link hc _ _ _ _ => exact absurd rfl hc.dotdot

theorem Leads.unique (h : Leads find nofollow n dir names place) : ∀ {n' : Nat} {place' : Path},
    Leads find nofollow n' dir names place' → place = place' ∧ n = n' := by
  induction h with
  | here =>
    intro n' place' h'
    obtain ⟨rfl, rfl⟩ := leads_nil h'
    exact ⟨rfl, rfl⟩
  | dot _ ih =>
    intro n' place' h'
    exact ih (leads_dot h')
  | dotdot _ ih =>
    intro n' place' h'
    exact ih (leads_dotdot h')
  | down hc hfind h ih =>
    intro n' place' h'
    cases h' with
    | dot _ => exact absurd rfl hc.dot
    | dotdot _ => exact absurd rfl hc.dotdot
    | down _ _ h' => exact ih h'
    | last _ _ =>
      obtain ⟨rfl, rfl⟩ := leads_nil h
      exact ⟨rfl, rfl⟩
    | link _ hfind' _ _ _ =>
      rw [hfind] at hfind'
      cases hfind'
  | last hc hlast =>
    intro n' place' h'
    cases h' with
    | dot _ => exact absurd rfl hc.dot
    | dotdot _ => exact absurd rfl hc.dotdot
    | down _ _ h' =>
      obtain ⟨rfl, rfl⟩ := leads_nil h'
      exact ⟨rfl, rfl⟩
    | last _ _ => exact ⟨rfl, rfl⟩
    | link _ hfind' _ hmore _ => exact absurd ⟨rfl, hlast _ hfind'⟩ hmore
  | link hc hfind _ hmore _ ih =>
    intro n' place' h'
    cases h' with
    | dot _ => exact absurd rfl hc.dot
    | dotdot _ => exact absurd rfl hc.dotdot
    | down _ hfind' _ =>
      rw [hfind] at hfind'
      cases hfind'
    | last _ hlast => exact absurd ⟨rfl, hlast _ hfind⟩ hmore
    | link _ hfind' _ _ h' =>
      rw [hfind] at hfind'
      cases hfind'
      obtain ⟨hplace, hn⟩ := ih h'
      exact ⟨hplace, congrArg (· + 1) hn⟩

theorem Leads.split {last : List Name} (hlast : last ≠ [])
    (h : Leads find nofollow n dir names place) :
    ∀ {first : List Name}, names = first ++ last → PlainDir find dir →
    ∃ n₁ n₂ mid, n = n₁ + n₂ ∧ Leads find false n₁ dir first mid ∧ PlainDir find mid ∧
    Leads find nofollow n₂ mid last place := by
  have hnone : ∀ {n dir place first} {names : List Name}, names = first ++ last → first = [] →
      PlainDir find dir → Leads find nofollow n dir names place →
      ∃ n₁ n₂ mid, n = n₁ + n₂ ∧ Leads find false n₁ dir first mid ∧ PlainDir find mid ∧
        Leads find nofollow n₂ mid last place := by
    rintro n dir _ _ _ rfl rfl hdir h
    exact ⟨0, n, dir, (Nat.zero_add n).symm, .here, hdir, h⟩
  induction h with
  | here =>
    intro first heq hdir
    exact absurd (List.append_eq_nil_iff.mp heq.symm).2 hlast
  | @dot n _ _ _ h ih =>
    intro first heq hdir
    cases first with
    | nil => exact hnone heq rfl hdir h.dot
    | cons c _ =>
      obtain ⟨rfl, hrest⟩ := List.cons.inj heq
      obtain ⟨n₁, n₂, mid, hn, h₁, hmid, h₂⟩ := ih hrest hdir
      exact ⟨n₁, n₂, mid, hn, h₁.dot, hmid, h₂⟩
  | @dotdot n _ _ _ h ih =>
    intro first heq hdir
    cases first with
    | nil => exact hnone heq rfl hdir h.dotdot
    | cons c _ =>
      obtain ⟨rfl, hrest⟩ := List.cons.inj heq
      obtain ⟨n₁, n₂, mid, hn, h₁, hmid, h₂⟩ := ih hrest hdir.dropLast
      exact ⟨n₁, n₂, mid, hn, h₁.dotdot, hmid, h₂⟩
  | @down n _ _ d _ hc hfind h ih =>
    intro first heq hdir
    cases first with
    | nil => exact hnone heq rfl hdir (h.down hc hfind)
    | cons c _ =>
      obtain ⟨rfl, hrest⟩ := List.cons.inj heq
      obtain ⟨n₁, n₂, mid, hn, h₁, hmid, h₂⟩ := ih hrest
        ⟨hdir.plain.append hdir.dir hc, fun _ => hfind⟩
      exact ⟨n₁, n₂, mid, hn, h₁.down hc hfind, hmid, h₂⟩
  | @last _ d hc hfinal =>
    intro first heq hdir
    cases first with
    | nil => exact hnone heq rfl hdir (.last hc hfinal)
    | cons c _ => exact absurd (List.append_eq_nil_iff.mp (List.cons.inj heq).2.symm).2 hlast
  | @link n _ _ d _ _ hc hfind hne hmore h ih =>
    intro first heq hdir
    cases first with
    | nil => exact hnone heq rfl hdir (h.link hc hfind hne hmore)
    | cons c _ =>
      obtain ⟨rfl, rfl⟩ := List.cons.inj heq
      obtain ⟨n₁, n₂, mid, hn, h₁, hmid, h₂⟩ := ih (List.append_assoc _ _ _).symm (by
        split
        · exact plainDir_nil find
        · exact hdir)
      exact ⟨n₁ + 1, n₂, mid, by omega, h₁.link hc hfind hne (fun h => nomatch h.2), hmid, h₂⟩

theorem Leads.append {mid : Path} {last : List Name} (hlast : last ≠ [])
    (h₁ : Leads find false n dir names mid) (hmid : PlainDir find mid) {n₂ : Nat}
    (h₂ : Leads find nofollow n₂ mid last place) :
    Leads find nofollow (n + n₂) dir (names ++ last) place := by
  induction h₁ with
  | here =>
    rw [Nat.zero_add]
    exact h₂
  | dot _ ih => exact (ih hmid h₂).dot
  | dotdot _ ih => exact (ih hmid h₂).dotdot
  | down hc hfind _ ih => exact (ih hmid h₂).down hc hfind
  | last hc _ =>
    rw [Nat.zero_add]
    exact h₂.down hc (hmid.dir (by simp))
  | link hc hfind hne _ _ ih =>
    have hrest := ih hmid h₂
    rw [List.append_assoc] at hrest
    rw [Nat.add_right_comm]
    exact hrest.link hc hfind hne fun h => hlast (List.append_eq_nil_iff.mp h.1).2

theorem Leads.followed (h : Leads find nofollow n dir names place)
    (hplace : ∀ target, find place ≠ some (.link target)) : Leads find false n dir names place := by
  induction h with
  | here => exact .here
  | dot _ ih => exact (ih hplace).dot
  | dotdot _ ih => exact (ih hplace).dotdot
  | down hc hfind _ ih => exact (ih hplace).down hc hfind
  | last hc _ => exact .last hc fun target h => absurd h (hplace target)
  | link hc hfind hne _ _ ih => exact (ih hplace).link hc hfind hne fun h => nomatch h.2

theorem Leads.plain (h : Leads find nofollow n dir names place) :
    PlainDir find dir → Plain find place := by
  induction h with
  | here => exact fun hdir => hdir.plain
  | dot _ ih => exact ih
  | dotdot _ ih => exact fun hdir => ih hdir.dropLast
  | down hc hfind _ ih => exact fun hdir => ih ⟨hdir.plain.append hdir.dir hc, fun _ => hfind⟩
  | last hc _ => exact fun hdir => hdir.plain.append hdir.dir hc
  | link _ _ _ _ _ ih =>
    intro hdir
    refine ih ?_
    split
    · exact plainDir_nil find
    · exact hdir

theorem Leads.walk (h : Leads t.find nofollow n dir names place) : ∀ {budget : Nat}, n ≤ budget →
      Namei.walk t nofollow budget dir names = .at place (t.find place) := by
  induction h with
  | here =>
    intro budget _
    rw [walk_nil]
  | dot _ ih =>
    intro budget hn
    rw [walk_dot]
    exact ih hn
  | dotdot _ ih =>
    intro budget hn
    rw [walk_dotdot]
    exact ih hn
  | down hc hfind _ ih =>
    intro budget hn
    rw [walk_name hc.dot hc.dotdot, hfind]
    exact ih hn
  | @last dir c hc hlast =>
    intro budget _
    rw [walk_name hc.dot hc.dotdot]
    cases hfind : t.find (dir ++ [c]) with
    | none => exact if_pos rfl
    | some entry =>
      cases entry with
      | file => exact if_pos rfl
      | dir => rw [walk_nil, hfind]
      | link target => exact if_pos ⟨rfl, hlast target hfind⟩
  | link hc hfind _ hmore _ ih =>
    intro budget hn
    obtain ⟨_, rfl⟩ : ∃ left, budget = left + 1 := ⟨budget - 1, by omega⟩
    rw [walk_name hc.dot hc.dotdot, hfind]
    dsimp only
    rw [if_neg hmore]
    exact ih (by omega)

end Leads

/-! ## Staying below -/

def followed (nofollow : Bool) (names : List Name) : List Name :=
  if nofollow then names.dropLast else names

def Idle (entry : Option Entry) : Prop := ∀ target, entry = some (.link target) → target = []

variable {nofollow : Bool}

theorem prefix_followed_cons {c : Name} {rest p : List Name} (hp : p <+: followed nofollow rest)
    (hne : p ≠ []) : c :: p <+: followed nofollow (c :: rest) := by
  cases nofollow with
  | false => exact List.cons_prefix_cons.mpr ⟨rfl, hp⟩
  | true =>
    cases rest with
    | nil => exact absurd (List.prefix_nil.mp hp) hne
    | cons d _ => exact List.cons_prefix_cons.mpr ⟨rfl, hp⟩

theorem head_followed {c : Name} {rest : List Name} (h : ¬ (rest = [] ∧ nofollow = true)) :
    [c] <+: followed nofollow (c :: rest) := by
  unfold followed
  cases nofollow with
  | false => exact List.cons_prefix_cons.mpr ⟨rfl, List.nil_prefix⟩
  | true =>
    have hne : rest ≠ [] := fun h0 => h ⟨h0, rfl⟩
    rw [List.dropLast_cons_of_ne_nil hne]
    exact List.cons_prefix_cons.mpr ⟨rfl, List.nil_prefix⟩

theorem walk_under {names : List Name} : ∀ {budget : Nat} {dir place : Path} {entry : Option Entry},
      (∀ c ∈ names, IsName c) →
      (∀ p, p ≠ [] → p <+: followed nofollow names → Idle (walk t true budget dir p).entry) →
      walk t nofollow budget dir names = .at place entry → dir <+: place := by
  induction names with
  | nil =>
    intro budget dir place entry _ _ hw
    rw [walk_nil] at hw
    cases hw
    exact List.prefix_rfl
  | cons c rest ih =>
    intro budget dir place entry hnames hidle hw
    have hc := hnames c List.mem_cons_self
    have hrest : ∀ d ∈ rest, IsName d := fun d hd => hnames d (List.mem_cons_of_mem _ hd)
    have hstep : ∀ nf r, walk t nf budget dir (c :: r) = _ := fun nf r =>
      walk_name hc.dot hc.dotdot r
    have hdown : dir <+: dir ++ [c] := List.prefix_append _ _
    rw [hstep] at hw
    cases hfind : t.find (dir ++ [c]) with
    | none =>
      rw [hfind] at hw
      dsimp only at hw
      split at hw
      · cases hw
        exact hdown
      · cases hw
    | some e =>
      cases e with
      | file =>
        rw [hfind] at hw
        dsimp only at hw
        split at hw
        · cases hw
          exact hdown
        · cases hw
      | dir =>
        rw [hfind] at hw
        refine hdown.trans (ih hrest (fun p hne hp => ?_) hw)
        have := hidle (c :: p) (List.cons_ne_nil _ _) (prefix_followed_cons hp hne)
        rw [hstep, hfind] at this
        exact this
      | link target =>
        rw [hfind] at hw
        dsimp only at hw
        split at hw
        · cases hw
          exact hdown
        next hlast =>
          -- The link is one the walk follows, so its target is empty.
          have htarget : target = [] := by
            refine hidle [c] (List.cons_ne_nil _ _) (head_followed hlast) target ?_
            rw [hstep, hfind]
            exact congrArg Outcome.entry (if_pos ⟨rfl, rfl⟩)
          subst htarget
          cases budget with
          | zero => cases hw
          | succ _ =>
            refine ih hrest (fun p hne hp => ?_) hw
            have := hidle (c :: p) (List.cons_ne_nil _ _) (prefix_followed_cons hp hne)
            rw [hstep, hfind] at this
            dsimp only at this
            rw [if_neg fun h => hne h.1] at this
            exact this

theorem walk_clear {names : List Name} : ∀ {dir : Path}, (∀ c ∈ names, IsName c) →
      (∀ q, q ≠ [] → q <+: followed nofollow names →
        ∀ target, t.find (dir ++ q) ≠ some (.link target)) →
      (∃ code, walk t nofollow budget dir names = .error code) ∨
        (walk t nofollow budget dir names = .at (dir ++ names) (t.find (dir ++ names)) ∧
          ∀ q, q ≠ [] → q <+: names → q ≠ names → t.find (dir ++ q) = some .dir) := by
  induction names with
  | nil =>
    intro dir _ _
    rw [walk_nil, List.append_nil]
    exact .inr ⟨rfl, fun q hne hq => absurd (List.prefix_nil.mp hq) hne⟩
  | cons c rest ih =>
    intro dir hnames hclear
    have hc := hnames c List.mem_cons_self
    have hlast : rest = [] → ∀ q, q ≠ [] → q <+: c :: rest → q ≠ c :: rest →
        t.find (dir ++ q) = some .dir := by
      rintro rfl q hne hq hq'
      rcases List.prefix_cons_iff.mp hq with rfl | ⟨r, rfl, hr⟩
      · exact absurd rfl hne
      · rw [List.prefix_nil.mp hr] at hq'
        exact absurd rfl hq'
    rw [walk_name hc.dot hc.dotdot]
    have happ : ∀ q, dir ++ [c] ++ q = dir ++ c :: q := fun q => by simp
    cases hfind : t.find (dir ++ [c]) with
    | none =>
      dsimp only
      split
      next hrest =>
        refine .inr ⟨?_, hlast hrest⟩
        rw [hrest, hfind]
      · exact .inl ⟨_, rfl⟩
    | some entry =>
      cases entry with
      | file =>
        dsimp only
        split
        next hrest =>
          refine .inr ⟨?_, hlast hrest⟩
          rw [hrest, hfind]
        · exact .inl ⟨_, rfl⟩
      | dir =>
        have hdown := @ih (dir ++ [c])
          (fun d hd => hnames d (List.mem_cons_of_mem _ hd)) fun q hne hq => by
            rw [happ]
            exact hclear (c :: q) (List.cons_ne_nil _ _) (prefix_followed_cons hq hne)
        rw [happ rest] at hdown
        refine hdown.imp_right fun ⟨hat, hdirs⟩ => ⟨hat, fun q hne hq hq' => ?_⟩
        rcases List.prefix_cons_iff.mp hq with rfl | ⟨r, rfl, hr⟩
        · exact absurd rfl hne
        · by_cases hr0 : r = []
          · rw [hr0]
            exact hfind
          · rw [← happ]
            exact hdirs r hr0 hr fun h => hq' (congrArg (c :: ·) h)
      | link target =>
        dsimp only
        split
        next hstop =>
          refine .inr ⟨?_, hlast hstop.1⟩
          rw [hstop.1, hfind]
        next hstop =>
          exact absurd hfind (hclear [c] (List.cons_ne_nil _ _) (head_followed hstop) target)

/-! ## Changing a tree -/

variable {t : Tree} {p q : Path} {entry : Entry}

theorem Tree.find_nil (t : Tree) : t.find [] = some .dir := by
  unfold Tree.find
  rw [if_pos rfl]

theorem Tree.find_of_ne_nil (t : Tree) (hp : p ≠ []) : t.find p = t.entries.lookup p := by
  unfold Tree.find
  rw [if_neg hp]

theorem lookup_eq_of_mem {l : List (Path × Entry)} (hl : (l.map Prod.fst).Nodup)
    (h : (p, entry) ∈ l) : l.lookup p = some entry := by
  induction l with
  | nil => cases h
  | cons head _ ih =>
    obtain ⟨key, _⟩ := head
    rw [List.map_cons, List.nodup_cons] at hl
    rcases List.mem_cons.mp h with heq | hrest
    · cases heq
      rw [List.lookup_cons_self]
    · have hne : p ≠ key := by
        rintro rfl
        exact hl.1 (List.mem_map.mpr ⟨_, hrest, rfl⟩)
      rw [List.lookup_cons, beq_false_of_ne hne]
      exact ih hl.2 hrest

section

variable (t)

theorem Tree.find_eq_some_iff (hp : p ≠ []) : t.find p = some entry ↔ (p, entry) ∈ t.entries := by
  rw [t.find_of_ne_nil hp]
  refine ⟨fun h => ?_, lookup_eq_of_mem t.once⟩
  obtain ⟨before, _, heq, _⟩ := List.lookup_eq_some_iff.mp h
  rw [heq]
  exact List.mem_append_right before List.mem_cons_self

theorem Tree.find_eq_none_iff (hp : p ≠ []) : t.find p = none ↔ ∀ e ∈ t.entries, e.1 ≠ p := by
  rw [t.find_of_ne_nil hp, List.lookup_eq_none_iff]
  refine forall₂_congr fun e _ => ?_
  rw [bne_iff_ne]
  exact ne_comm

theorem Tree.find_names (h : t.find p = some entry) : ∀ c ∈ p, IsName c := by
  by_cases hp : p = []
  · rw [hp]
    exact fun c hc => (nomatch hc)
  · exact (t.named _ ((t.find_eq_some_iff hp).mp h)).2

theorem Tree.find_dropLast (h : t.find p = some entry) : t.find p.dropLast = some .dir := by
  by_cases hp : p = []
  · rw [hp]
    exact t.find_nil
  · rcases t.parents _ ((t.find_eq_some_iff hp).mp h) with hnil | hdir
    · rw [hnil]
      exact t.find_nil
    · by_cases hq : p.dropLast = []
      · rw [hq]
        exact t.find_nil
      · exact (t.find_eq_some_iff hq).mpr hdir

theorem Tree.find_above (hpre : p <+: q) (hne : p ≠ q) (h : t.find q = some entry) :
    t.find p = some .dir := by
  induction q using List.reverseRecOn generalizing entry with
  | nil => exact absurd (List.prefix_nil.mp hpre) hne
  | append_singleton q c ih =>
    have hdir := t.find_dropLast h
    rw [List.dropLast_concat] at hdir
    have hq := (List.prefix_concat_iff.mp hpre).resolve_left hne
    by_cases heq : p = q
    · rw [heq]
      exact hdir
    · exact ih hq heq hdir

end

/-! ## Something new -/

structure Vacant (t : Tree) (p : Path) : Prop where
  ne_nil : p ≠ []
  names : ∀ c ∈ p, IsName c
  free : t.find p = none
  parent : t.find p.dropLast = some .dir

instance (t : Tree) (p : Path) : Decidable (Vacant t p) :=
  decidable_of_iff (p ≠ [] ∧ (∀ c ∈ p, IsName c) ∧ t.find p = none ∧ t.find p.dropLast = some .dir)
    ⟨fun h => ⟨h.1, h.2.1, h.2.2.1, h.2.2.2⟩, fun h => ⟨h.1, h.2, h.3, h.4⟩⟩

theorem Vacant.parent_mem (h : Vacant t p) :
    p.dropLast = [] ∨ (p.dropLast, Entry.dir) ∈ t.entries := by
  by_cases hp : p.dropLast = []
  · exact .inl hp
  · exact .inr ((t.find_eq_some_iff hp).mp h.parent)

def Tree.add (t : Tree) (p : Path) (entry : Entry) : Tree :=
  if h : Vacant t p then
    { entries := (p, entry) :: t.entries
      named := by
        intro e he
        rcases List.mem_cons.mp he with rfl | he
        · exact ⟨h.ne_nil, h.names⟩
        · exact t.named e he
      once := by
        rw [List.map_cons, List.nodup_cons]
        refine ⟨fun hmem => ?_, t.once⟩
        obtain ⟨e, he, heq⟩ := List.mem_map.mp hmem
        exact (t.find_eq_none_iff h.ne_nil).mp h.free e he heq
      parents := by
        intro e he
        rcases List.mem_cons.mp he with rfl | he
        · exact h.parent_mem.imp id (List.mem_cons_of_mem _)
        · exact (t.parents e he).imp id (List.mem_cons_of_mem _) }
  else t

end Fathom.Lib.Namei
