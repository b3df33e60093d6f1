import Fathom.Runtime.Session
import Fathom.Proofs.Arena

/-!
# What a failed fork leaves behind

`ForkProcess` makes an arena, stops the parent's other threads and copies, and
only then asks for the child's threads. It takes nothing back on its way out
with an error.
-/

namespace Fathom

open Lib ProcessRecord GuestThreadRecord

def ProcessRecord.naming (p : ProcessRecord) : Bool × SpacePtr × SpacePtr × SpacePtr :=
  (p.finished, p.space, p.previousSpace, p.borrowedSpace)

namespace FathomSession

variable {s s' : FathomSession} {pid : Nat}

/-! ## What the parts leave alone -/

theorem find_modify (s : FathomSession) (pid q : Nat) (f : ProcessRecord → ProcessRecord) :
    (s.modify pid f).find q = if q = pid then (s.find q).map f else s.find q := rfl

/-- The pointers to arenas, which is all that is to be known of them here. -/
def arenaIds (s : FathomSession) : List Nat := s.arenas32.arenas.map Arena32.id

structure SameSpaces (s s' : FathomSession) : Prop where
  space : s'.space = s.space
  arenas : s'.arenas32 = s.arenas32

theorem SameSpaces.refl (s : FathomSession) : SameSpaces s s := ⟨rfl, rfl⟩

theorem SameSpaces.symm (h : SameSpaces s s') : SameSpaces s' s := ⟨h.space.symm, h.arenas.symm⟩

variable {s'' : FathomSession}

theorem SameSpaces.trans (h : SameSpaces s s') (h' : SameSpaces s' s'') : SameSpaces s s'' :=
  ⟨h'.space.trans h.space, h'.arenas.trans h.arenas⟩

theorem SameSpaces.ids (h : SameSpaces s s') : s'.arenaIds = s.arenaIds :=
  congrArg (fun t : Arenas => t.arenas.map Arena32.id) h.arenas

structure Leaves (s s' : FathomSession) : Prop where
  spaces : SameSpaces s s'
  find : ∀ q, s'.find q = s.find q
  freezes : s'.freezes = s.freezes

theorem Leaves.refl (s : FathomSession) : Leaves s s := ⟨.refl s, fun _ => rfl, rfl⟩

theorem Leaves.trans (h : Leaves s s') (h' : Leaves s' s'') : Leaves s s'' :=
  ⟨h.spaces.trans h'.spaces, fun q => (h'.find q).trans (h.find q), h'.freezes.trans h.freezes⟩

section

variable (is32bit creates : Bool)

variable (s)

theorem engineFor_eq :
    ∃ e₃₂ e₆₄, (s.engineFor is32bit creates).2 = { s with engine32 := e₃₂, engine64 := e₆₄ } := by
  rw [engineFor]
  split
  · split
    · exact ⟨_, _, rfl⟩
    · exact ⟨_, _, rfl⟩
  · split
    · exact ⟨_, _, rfl⟩
    · exact ⟨_, _, rfl⟩

theorem engineIn_eq (ptr : SpacePtr) (is32bit creates : Bool) :
    ∃ e₃₂ e₆₄, (s.engineIn ptr is32bit creates).2 =
      { s with engine32 := e₃₂, engine64 := e₆₄ } := by
  cases ptr with
  | own id => exact ⟨_, _, rfl⟩
  | null => exact engineFor_eq s is32bit creates
  | session => exact engineFor_eq s is32bit creates

theorem engineIn_leaves (ptr : SpacePtr) (is32bit creates : Bool) :
    Leaves s (s.engineIn ptr is32bit creates).2 := by
  obtain ⟨_, _, heq⟩ := engineIn_eq s ptr is32bit creates
  rw [heq]
  exact ⟨⟨rfl, rfl⟩, fun _ => rfl, rfl⟩

theorem engineIn_own {id : Nat} (hid : id ∈ s.arenaIds) (is32bit creates : Bool) :
    (s.engineIn (.own id) is32bit creates).1 = true := by
  obtain ⟨arena, harena, rfl⟩ := List.mem_map.mp hid
  simp only [engineIn, Arenas.find, Option.isSome_map, List.find?_isSome]
  exact ⟨arena, harena, beq_self_eq_true _⟩

theorem takePid_leaves : Leaves s { s with table := s.table.takePid } :=
  ⟨⟨rfl, rfl⟩, fun _ => rfl, rfl⟩

end

def joinMark (p : ProcessRecord) : ProcessRecord :=
  if p.finished && p.threadStarted && !p.joined then { p with joined := true } else p

theorem find_joinFinishedChildren (s : FathomSession) (q : Nat) :
    s.joinFinishedChildren.find q = (s.find q).map joinMark := rfl

theorem joinMark_eq (p : ProcessRecord) :
    joinMark p = { p with joined := (joinMark p).joined } := by
  rw [joinMark]
  split
  · rfl
  · rfl

theorem newArena_cases (s : FathomSession) (is32bit : Bool) (reserved : Option Geometry)
    (context : Bool) : ((¬ (reserved.isSome = true ∧ context = true)) ∧
        s.newArena is32bit reserved context = (.null, s)) ∨
      (reserved.isSome = true ∧ context = true) ∧
        (s.newArena is32bit reserved context).1 = .own s.arenas32.next ∧
        (s.newArena is32bit reserved context).2.arenaIds = s.arenaIds ++ [s.arenas32.next] ∧
        (s.newArena is32bit reserved context).2.table = s.table ∧
        (s.newArena is32bit reserved context).2.arenas32.next = s.arenas32.next + 1 := by
  simp only [newArena]
  cases reserved with
  | none => exact .inl ⟨by simp, rfl⟩
  | some g =>
    cases context with
    | false => exact .inl ⟨by simp, rfl⟩
    | true =>
      refine .inr ⟨⟨rfl, rfl⟩, rfl, ?_, rfl, rfl⟩
      simp [arenaIds, Arenas.push]

/-! ## Freezing -/

structure Freezes (s : FathomSession) (pid : Nat) (tids : List Nat) (s' : FathomSession) :
    Prop where
  spaces : SameSpaces s s'
  find : ∀ q, s'.find q = if q = pid
    then (s.find q).map fun p => { p with frozenThreads := p.frozenThreads ++ tids }
    else s.find q
  held : ∀ p, s.find pid = some p →
    s'.freezes = if p.frozenThreads = [] ∧ tids ≠ [] then s.freezes + 1 else s.freezes

theorem freezes_nothing (s : FathomSession) (pid : Nat) : Freezes s pid [] s := by
  refine ⟨.refl s, fun q => ?_, fun p _ => by simp⟩
  split
  · cases s.find q with
    | none => rfl
    | some p => simp
  · rfl

variable {tids : List Nat} {s₁ : FathomSession}

theorem Freezes.of_leaves (h : Leaves s s₁) (h₁ : Freezes s₁ pid tids s') :
    Freezes s pid tids s' := by
  refine ⟨h.spaces.trans h₁.spaces, fun q => ?_, fun p hp => ?_⟩
  · rw [h₁.find, h.find]
  · rw [h₁.held p ((h.find pid).trans hp), h.freezes]

theorem Freezes.cons {tid : Nat} (h : Freezes s pid [tid] s₁) (h₁ : Freezes s₁ pid tids s') :
    Freezes s pid (tid :: tids) s' := by
  refine ⟨h.spaces.trans h₁.spaces, fun q => ?_, fun p hp => ?_⟩
  · rw [h₁.find, h.find]
    split
    · cases s.find q with
      | none => rfl
      | some p => simp
    · rfl
  · have hp₁ : s₁.find pid = some { p with frozenThreads := p.frozenThreads ++ [tid] } := by
      rw [h.find, if_pos rfl, hp]
      rfl
    rw [h₁.held _ hp₁, h.held p hp]
    simp

theorem freezes_freeze (s : FathomSession) (pid : Nat) (stops : Nat → Bool) (tid : Nat) :
    Freezes s pid (if stops tid then [tid] else []) (freeze pid stops s tid) := by
  rw [freeze]
  cases hfind : s.find pid with
  | none =>
    refine ⟨.refl s, fun q => ?_, fun p hp => ?_⟩
    · by_cases hq : q = pid
      · rw [if_pos hq, hq, hfind]
        rfl
      · rw [if_neg hq]
    · rw [hfind] at hp
      cases hp
  | some p =>
    cases stops tid with
    | false => exact freezes_nothing s pid
    | true =>
      refine ⟨⟨rfl, rfl⟩, fun q => rfl, fun p' hp' => ?_⟩
      rw [hfind] at hp'
      cases hp'
      simp [modify]

theorem freezes_all (stops : Nat → Bool) (pid : Nat) (tids : List Nat) (s : FathomSession) :
    Freezes s pid (tids.filter stops) (tids.foldl (freeze pid stops) s) := by
  induction tids generalizing s with
  | nil => exact freezes_nothing s pid
  | cons tid _ ih =>
    have hone := freezes_freeze s pid stops tid
    have hrest := ih (freeze pid stops s tid)
    rw [List.filter_cons]
    split at hone
    next hstops =>
      rw [if_pos hstops]
      exact hone.cons hrest
    next hstops =>
      rw [if_neg hstops]
      have hquiet : Leaves s (freeze pid stops s tid) := by
        rw [freeze]
        split
        · exact .refl s
        · rw [if_neg hstops]
          exact .refl s
      exact hrest.of_leaves hquiet

def frozenBy (c : Settings) (p : ProcessRecord) (pid caller : Nat) (force : Bool)
    (stops : Nat → Bool) : List Nat :=
  if c.freezeWanted || force then (otherThreads p pid caller).filter stops else []

variable {p : ProcessRecord}

theorem freezes_otherThreads (s : FathomSession) (c : Settings) (hp : s.find pid = some p)
    (caller : Nat) (force : Bool) (stops : Nat → Bool) (creates : Bool) :
    Freezes s pid (frozenBy c p pid caller force stops)
      (s.freezeOtherThreads c pid caller force stops creates).2 := by
  simp only [freezeOtherThreads, hp, frozenBy]
  rw [← Bool.not_or]
  cases c.freezeWanted || force with
  | true =>
    have hengine := engineIn_leaves s p.space p.is32bit creates
    exact (freezes_all stops pid _ _).of_leaves hengine
  | false => exact freezes_nothing s pid

theorem find_thawThreads (s : FathomSession) (pid q : Nat) : (s.thawThreads pid).find q = if q = pid
      then (s.find q).map fun p => { p with frozenThreads := [] } else s.find q := by
  rw [thawThreads]
  cases hfind : s.find pid with
  | none =>
    by_cases hq : q = pid
    · rw [if_pos hq, hq, hfind]
      rfl
    · rw [if_neg hq]
  | some p =>
    by_cases hnone : p.frozenThreads = []
    · simp only [if_pos hnone]
      by_cases hq : q = pid
      · rw [if_pos hq, hq, hfind, Option.map_some, ← hnone]
      · rw [if_neg hq]
    · simp only [if_neg hnone]
      rfl

theorem thawThreads_held (hp : s.find pid = some p) :
    (s.thawThreads pid).freezes = if p.frozenThreads = [] then s.freezes else s.freezes - 1 := by
  simp only [thawThreads, hp]
  split
  · rfl
  · rfl

theorem thawThreads_spaces (s : FathomSession) (pid : Nat) : SameSpaces s (s.thawThreads pid) := by
  rw [thawThreads]
  split
  · exact .refl s
  · split
    · exact .refl s
    · exact ⟨rfl, rfl⟩

/-! ## Which arenas there are, and who names them -/

structure Adds (s : FathomSession) (more : List Nat) (s' : FathomSession) : Prop where
  ids : s'.arenaIds = s.arenaIds ++ more
  next : s'.arenas32.next = s.arenas32.next + more.length
  names : ∀ q, (s'.find q).map naming = (s.find q).map naming

theorem Adds.trans {more more' : List Nat} (h : Adds s more s') (h' : Adds s' more' s'') :
    Adds s (more ++ more') s'' := by
  refine ⟨?_, ?_, fun q => (h'.names q).trans (h.names q)⟩
  · rw [h'.ids, h.ids, List.append_assoc]
  · rw [h'.next, h.next, List.length_append, Nat.add_assoc]

theorem Adds.of_ids (hids : s'.arenaIds = s.arenaIds) (hnext : s'.arenas32.next = s.arenas32.next)
    (hnames : ∀ q, (s'.find q).map naming = (s.find q).map naming) :
    Adds s [] s' :=
  ⟨by rw [hids, List.append_nil], hnext, hnames⟩

theorem Adds.of_spaces (h : SameSpaces s s')
    (hnames : ∀ q, (s'.find q).map naming = (s.find q).map naming) :
    Adds s [] s' :=
  .of_ids h.ids (congrArg Arenas.next h.arenas) hnames

theorem Adds.ids_ne {id : Nat} (h : Adds s [id] s') : s'.arenaIds ≠ s.arenaIds := by
  intro hsame
  have hlen := congrArg List.length (h.ids.symm.trans hsame)
  simp at hlen

theorem Adds.find_none {more : List Nat} {q : Nat} (h : Adds s more s') (hnone : s.find q = none) :
    s'.find q = none := by
  have hnames := h.names q
  rw [hnone, Option.map_none, Option.map_eq_none_iff] at hnames
  exact hnames

theorem Leaves.adds (h : Leaves s s') : Adds s [] s' := .of_spaces h.spaces fun q => by rw [h.find]

theorem ids_set (t : Arenas) (id : Nat) (space : GuestAddressSpace) :
    (t.set id space).arenas.map Arena32.id = t.arenas.map Arena32.id := by
  simp only [Arenas.set, List.map_map]
  refine List.map_congr_left fun a _ => ?_
  rw [Function.comp_apply]
  split
  · rfl
  · rfl

theorem setSpace_adds (s : FathomSession) (ptr : SpacePtr) (space : GuestAddressSpace)
    (host : Host) : Adds s [] (s.setSpace ptr space host) := by
  cases ptr with
  | null => exact .of_ids rfl rfl fun _ => rfl
  | session => exact .of_ids rfl rfl fun _ => rfl
  | own id => exact .of_ids (ids_set s.arenas32 id space) rfl fun _ => rfl

theorem names_of_find {f : ProcessRecord → ProcessRecord}
    (hfind : ∀ q, s'.find q = if q = pid then (s.find q).map f else s.find q)
    (hf : ∀ p, (f p).naming = p.naming) (q : Nat) :
    (s'.find q).map naming = (s.find q).map naming := by
  rw [hfind]
  split
  · rw [Option.map_map]
    exact congrArg (fun g => (s.find q).map g) (funext hf)
  · rfl

theorem Freezes.adds (h : Freezes s pid tids s') : Adds s [] s' :=
  .of_spaces h.spaces (names_of_find h.find fun _ => rfl)

section

variable (s)

theorem thawThreads_adds (pid : Nat) : Adds s [] (s.thawThreads pid) :=
  .of_spaces (thawThreads_spaces s pid) (names_of_find (find_thawThreads s pid) fun _ => rfl)

theorem joinFinishedChildren_adds : Adds s [] s.joinFinishedChildren := by
  refine .of_spaces ⟨rfl, rfl⟩ fun q => ?_
  rw [find_joinFinishedChildren, Option.map_map]
  refine congrArg (fun g => (s.find q).map g) (funext fun p => ?_)
  rw [Function.comp_apply, joinMark_eq]
  rfl

theorem newArena_adds (is32bit : Bool) {reserved : Option Geometry} {context : Bool}
    (hmade : reserved.isSome = true ∧ context = true) :
    (s.newArena is32bit reserved context).1 = .own s.arenas32.next ∧
    Adds s [s.arenas32.next] (s.newArena is32bit reserved context).2 := by
  obtain ⟨hnot, -⟩ | ⟨-, hptr, hids, htable, hnext⟩ := newArena_cases s is32bit reserved context
  · exact absurd hmade hnot
  · exact ⟨hptr, hids, hnext, fun q => by simp only [find, htable]⟩

theorem copyParent_adds (c : Settings) (r : ForkArguments) (a : ForkAnswers)
    (parent : ProcessRecord) (childSpace : SpacePtr) :
    Adds s [] (s.copyParent c r a parent childSpace) := by
  have hfrozen : Adds s [] (if c.freezeForCopy
      then (s.freezeOtherThreads c r.caller r.thread true a.stops a.sessionContext).2 else s) := by
    split
    · cases hfind : s.find r.caller with
      | none =>
        simp only [freezeOtherThreads, hfind]
        exact (Leaves.refl s).adds
      | some p => exact (freezes_otherThreads s c hfind r.thread true a.stops a.sessionContext).adds
    · exact (Leaves.refl s).adds
  rw [copyParent]
  split
  · exact hfrozen.trans (setSpace_adds _ childSpace _ _)
  · exact hfrozen

end

def begun (s : FathomSession) : FathomSession :=
  { s.joinFinishedChildren with table := s.joinFinishedChildren.table.takePid }

section

variable (s)

theorem begun_leaves : Leaves s.joinFinishedChildren s.begun :=
  takePid_leaves s.joinFinishedChildren

theorem begun_adds : Adds s [] s.begun := (joinFinishedChildren_adds s).trans (begun_leaves s).adds

theorem find_begun (q : Nat) : s.begun.find q = (s.find q).map joinMark := rfl

theorem forkProcess_no_parent (c : Settings) (r : ForkArguments) (a : ForkAnswers)
    (hfind : s.find r.caller = none) : s.forkProcess c r a = (-1, s.joinFinishedChildren) := by
  simp [forkProcess, find_joinFinishedChildren, hfind]

end

variable {parent : ProcessRecord}

section

variable (c : Settings) (r : ForkArguments) (a : ForkAnswers)

variable (s)

section

variable (hfind : s.find r.caller = some parent)
include hfind

theorem forkProcess_no_arena (hcopies : r.copies c = true)
    (hmade : ¬ (a.reserved.isSome = true ∧ a.arenaContext = true)) :
    s.forkProcess c r a = (-11, s.begun) := by
  obtain ⟨-, hnone⟩ | ⟨hyes, -⟩ :=
    newArena_cases s.begun (joinMark parent).is32bit a.reserved a.arenaContext
  · rw [begun] at hnone
    simp only [forkProcess, find_joinFinishedChildren, hfind, Option.map_some, hcopies, hnone]
    rfl
  · exact absurd hyes hmade

theorem forkProcess_copying (hcopies : r.copies c = true)
    (hmade : a.reserved.isSome = true ∧ a.arenaContext = true) :
    ∃ s₂ child, Adds s [s.arenas32.next] s₂ ∧
    child.naming = (false, .own s.arenas32.next, .null, .null) ∧ s.forkProcess c r a =
      if a.threadForked then s₂.startChild s.table.nextPid child a.hostThread else (-11, s₂) := by
  obtain ⟨hptr, hnew⟩ := newArena_adds s.begun (joinMark parent).is32bit hmade
  generalize hs₁ : (s.begun.newArena (joinMark parent).is32bit a.reserved a.arenaContext).2 = s₁
    at hnew
  have hcopied := ((begun_adds s).trans hnew).trans
    (copyParent_adds s₁ c r a (joinMark parent) (.own s.arenas32.next))
  have hengine := (engineIn_leaves (s₁.copyParent c r a (joinMark parent) (.own s.arenas32.next))
    (.own s.arenas32.next) (joinMark parent).is32bit a.sessionContext).adds
  refine ⟨_, (s₁.copyParent c r a (joinMark parent) (.own s.arenas32.next)).forkedChild r true
    (joinMark parent) (.own s.arenas32.next),
    hcopied.trans hengine, rfl, ?_⟩
  change _ = SpacePtr.own s.arenas32.next at hptr
  have hmem : s.arenas32.next ∈ (s₁.copyParent c r a (joinMark parent)
      (.own s.arenas32.next)).arenaIds := by
    rw [hcopied.ids]
    exact List.mem_append_right _ (List.mem_singleton_self _)
  rw [begun] at hptr hs₁
  simp only [forkProcess, find_joinFinishedChildren, hfind, Option.map_some, hcopies, if_true,
    hptr, hs₁, reduceCtorEq, and_false, if_false, engineIn_own _ hmem, Bool.true_and]
  cases a.threadForked with
  | false => rfl
  | true => rfl

theorem forkProcess_borrowing (hcopies : r.copies c = false) : s.forkProcess c r a =
      let engine := s.begun.engineIn (joinMark parent).space (joinMark parent).is32bit
        a.sessionContext
      if !(engine.1 && a.threadForked) then (-11, engine.2)
      else
        (if r.ownStack then engine.2
          else engine.2.freezeForBorrow c r a (joinMark parent)).startChild s.table.nextPid
          (s.begun.forkedChild r false (joinMark parent) (joinMark parent).space) a.hostThread := by
  simp only [forkProcess, find_joinFinishedChildren, hfind, hcopies]
  rfl

end

end

variable (c : Settings)

/-! ## A fork that fails -/

def Unfrozen (p p' : ProcessRecord) : Prop :=
  p'.frozenThreads.Sublist p.frozenThreads ∧
  p' = { p with joined := p'.joined, frozenThreads := p'.frozenThreads }

structure ForkUndone (s s' : FathomSession) : Prop where
  spaces : SameSpaces s s'
  held : s'.freezes ≤ s.freezes
  processes : ∀ q, Option.Rel Unfrozen (s.find q) (s'.find q)

/-- The arena that was made, or the threads that were stopped, when a fork goes
wrong. -/
def ForkLeaves (s : FathomSession) (c : Settings) (r : ForkArguments) (a : ForkAnswers) : Prop :=
  ∃ parent, s.find r.caller = some parent ∧
  if r.copies c then a.reserved.isSome = true ∧ a.arenaContext = true
  else r.ownStack = false ∧ a.threadForked = true ∧
  (s.engineIn parent.space parent.is32bit a.sessionContext).1 = true ∧
  parent.threads.any runs = true ∧ c.borrowDisabled = false ∧
  frozenBy c parent r.caller r.thread false a.stops ≠ []

theorem Unfrozen.refl (p : ProcessRecord) : Unfrozen p p := ⟨List.Sublist.refl _, rfl⟩

theorem Unfrozen.trans {p p' p'' : ProcessRecord} (h : Unfrozen p p') (h' : Unfrozen p' p'') :
    Unfrozen p p'' := by
  refine ⟨h'.1.trans h.1, ?_⟩
  rw [h'.2, h.2]

theorem rel_refl (o : Option ProcessRecord) : Option.Rel Unfrozen o o := by
  cases o with
  | none => exact .none
  | some p => exact .some (.refl p)

theorem rel_trans {o o' o'' : Option ProcessRecord} (h : Option.Rel Unfrozen o o')
    (h' : Option.Rel Unfrozen o' o'') : Option.Rel Unfrozen o o'' := by
  cases h with
  | none => exact h'
  | some hp =>
    cases h' with
    | some hp' => exact .some (hp.trans hp')

theorem ForkUndone.trans (h : ForkUndone s s') (h' : ForkUndone s' s'') : ForkUndone s s'' :=
  ⟨h.spaces.trans h'.spaces, h'.held.trans h.held,
    fun q => rel_trans (h.processes q) (h'.processes q)⟩

theorem Leaves.undone (h : Leaves s s') : ForkUndone s s' := by
  refine ⟨h.spaces, Int.le_of_eq h.freezes, fun q => ?_⟩
  rw [h.find]
  exact rel_refl _

theorem unfrozen_joinMark (p p' : ProcessRecord) : Unfrozen (joinMark p) p' ↔ Unfrozen p p' := by
  rw [joinMark_eq]
  exact Iff.rfl

theorem undone_joined_iff (h : Leaves s.joinFinishedChildren s₁) :
    ForkUndone s₁ s' ↔ ForkUndone s s' := by
  have hspaces : SameSpaces s s₁ := ⟨h.spaces.space, h.spaces.arenas⟩
  have hheld : s₁.freezes = s.freezes := h.freezes
  have hrel : ∀ o o' : Option ProcessRecord,
      Option.Rel Unfrozen (o.map joinMark) o' ↔ Option.Rel Unfrozen o o' := by
    intro o o'
    cases o with
    | none => exact Iff.rfl
    | some p =>
      cases o' with
      | none => exact ⟨fun h => (nomatch h), fun h => (nomatch h)⟩
      | some p' => simp [unfrozen_joinMark]
  constructor
  · intro hundone
    refine ⟨hspaces.trans hundone.spaces, hheld ▸ hundone.held, fun q => (hrel _ _).mp ?_⟩
    rw [← find_joinFinishedChildren, ← h.find]
    exact hundone.processes q
  · intro hundone
    refine ⟨hspaces.symm.trans hundone.spaces, hheld ▸ hundone.held, fun q => ?_⟩
    rw [h.find]
    exact (hrel _ _).mpr (hundone.processes q)

theorem startChild_refused (hfresh : s.find pid = none) (child : ProcessRecord) :
    (s.startChild pid child false).1 = -11 ∧ Leaves s (s.startChild pid child false).2 := by
  refine ⟨rfl, ⟨rfl, rfl⟩, fun q => ?_, rfl⟩
  change (if q = pid then none else if q = pid then some child else s.find q) = s.find q
  by_cases hq : q = pid
  · rw [if_pos hq, hq, hfresh]
  · rw [if_neg hq, if_neg hq]

theorem Freezes.undone_iff (h : Freezes s pid tids s') (hp : s.find pid = some p) :
    ForkUndone s s' ↔ tids = [] := by
  constructor
  · intro hundone
    have hrel := hundone.processes pid
    rw [h.find, if_pos rfl, hp] at hrel
    cases hrel with
    | some hunfrozen =>
      have hlen := hunfrozen.1.length_le
      rw [List.length_append] at hlen
      exact List.length_eq_zero_iff.mp (by omega)
  · rintro rfl
    refine ⟨h.spaces, ?_, fun q => ?_⟩
    · rw [h.held p hp]
      simp
    · rw [h.find]
      split
      · cases s.find q with
        | none => exact .none
        | some p => simpa using rel_refl (some p)
      · exact rel_refl _

theorem Freezes.thaw_undone (h : Freezes s pid tids s') (hp : s.find pid = some p) :
    ForkUndone s (s'.thawThreads pid) := by
  have hp' : s'.find pid = some { p with frozenThreads := p.frozenThreads ++ tids } := by
    rw [h.find, if_pos rfl, hp]
    rfl
  refine ⟨h.spaces.trans (thawThreads_spaces s' pid), ?_, fun q => ?_⟩
  · rw [thawThreads_held hp', h.held p hp]
    by_cases hnone : p.frozenThreads = []
    · by_cases htids : tids = []
      · simp [hnone, htids]
      · simp [hnone, htids]
    · simp [hnone]
  · rw [find_thawThreads, h.find]
    by_cases hq : q = pid
    · rw [if_pos hq, if_pos hq, hq, hp]
      exact .some ⟨List.nil_sublist _, rfl⟩
    · rw [if_neg hq, if_neg hq]
      exact rel_refl _

theorem engineIn_fst (s s' : FathomSession) (harenas : s'.arenas32 = s.arenas32)
    (h₃₂ : s'.engine32 = s.engine32) (h₆₄ : s'.engine64 = s.engine64) (ptr : SpacePtr)
    (is32bit creates : Bool) :
    (s'.engineIn ptr is32bit creates).1 = (s.engineIn ptr is32bit creates).1 := by
  simp only [engineIn, engineFor, harenas, h₃₂, h₆₄]
  cases ptr with
  | own id => rfl
  | null =>
    simp only
    split
    · split
      · rfl
      · rfl
    · split
      · rfl
      · rfl
  | session =>
    simp only
    split
    · split
      · rfl
      · rfl
    · split
      · rfl
      · rfl

theorem frozenBy_joinMark (p : ProcessRecord) (caller : Nat) (force : Bool) (stops : Nat → Bool) :
    frozenBy c (joinMark p) pid caller force stops = frozenBy c p pid caller force stops := by
  rw [joinMark_eq]
  rfl

theorem Adds.not_undone {id : Nat} (h : Adds s [id] s') : ¬ ForkUndone s s' :=
  fun hundone => h.ids_ne hundone.spaces.ids

theorem startChild_neg (child : ProcessRecord) {hostThread : Bool}
    (herr : (s.startChild pid child hostThread).1 < 0) : hostThread = false := by
  cases hostThread with
  | false => rfl
  | true => exact absurd herr (by simp [startChild])

section

variable (s) (r : ForkArguments) (a : ForkAnswers) (hfind : s.find r.caller = some parent)
include hfind

theorem freezeForBorrow_undone_iff : ForkUndone s (s.freezeForBorrow c r a parent) ↔
    ¬ (parent.threads.any runs = true ∧ c.borrowDisabled = false ∧
      frozenBy c parent r.caller r.thread false a.stops ≠ []) := by
  have hfrozen := freezes_otherThreads s c hfind r.thread false a.stops a.sessionContext
  rw [freezeForBorrow]
  cases parent.threads.any runs with
  | false => simpa using (Leaves.refl s).undone
  | true =>
    cases c.borrowDisabled with
    | false => simpa using hfrozen.undone_iff hfind
    | true => simpa using hfrozen.thaw_undone hfind

theorem freezeForBorrow_find_none (hnone : s.find pid = none) :
    (s.freezeForBorrow c r a parent).find pid = none := by
  have hfrozen := freezes_otherThreads s c hfind r.thread false a.stops a.sessionContext
  have hfrozenNone := hfrozen.find pid
  simp only [hnone, Option.map_none] at hfrozenNone
  rw [freezeForBorrow]
  cases parent.threads.any runs with
  | false => simpa using hnone
  | true =>
    cases c.borrowDisabled with
    | false => simpa using hfrozenNone
    | true => simp [find_thawThreads, hfrozenNone]

theorem startChild_undone_iff (hfresh : s.find pid = none) (child : ProcessRecord) :
    ForkUndone s ((if r.ownStack then s
        else s.freezeForBorrow c r a parent).startChild pid child false).2 ↔
      ¬ (r.ownStack = false ∧ parent.threads.any runs = true ∧
        c.borrowDisabled = false ∧ frozenBy c parent r.caller r.thread false a.stops ≠ []) := by
  cases r.ownStack with
  | true => simpa using (startChild_refused hfresh child).2.undone
  | false =>
    have hborrow := freezeForBorrow_undone_iff s c r a hfind
    have hgone := (startChild_refused (freezeForBorrow_find_none s c r a hfind hfresh) child).2
    have hsame : ForkUndone s ((s.freezeForBorrow c r a parent).startChild pid child false).2 ↔
        ForkUndone s (s.freezeForBorrow c r a parent) := by
      constructor
      · intro h
        refine ⟨h.spaces.trans hgone.spaces.symm, hgone.freezes ▸ h.held, fun q => ?_⟩
        rw [← hgone.find]
        exact h.processes q
      · intro h
        exact h.trans hgone.undone
    simpa using hsame.trans hborrow

end

/-- A fork that answers an error has undone what it did exactly when it had not
come to make an arena or to stop a thread. -/
theorem forkProcess_undone_iff (s : FathomSession) (c : Settings) (r : ForkArguments)
    (a : ForkAnswers) (herr : (s.forkProcess c r a).1 < 0) :
    ForkUndone s (s.forkProcess c r a).2 ↔ ¬ s.ForkLeaves c r a := by
  cases hfind : s.find r.caller with
  | none =>
    rw [forkProcess_no_parent s c r a hfind]
    refine iff_of_true ((undone_joined_iff (.refl _)).mp (Leaves.refl _).undone) ?_
    rintro ⟨_, hparent, -⟩
    rw [hfind] at hparent
    cases hparent
  | some parent =>
    have hfresh : s.find s.table.nextPid = none := s.table.fresh _ le_rfl
    simp only [ForkLeaves, hfind, Option.some.injEq, exists_eq_left']
    cases hcopies : r.copies c with
    | true =>
      by_cases hmade : a.reserved.isSome = true ∧ a.arenaContext = true
      · obtain ⟨_, child, hadds, -, hout⟩ := forkProcess_copying s c r a hfind hcopies hmade
        refine iff_of_false ?_ (not_not_intro hmade)
        split at hout
        · rw [hout] at herr ⊢
          rw [startChild_neg child herr]
          have hgone := (startChild_refused (hadds.find_none hfresh) child).2
          exact (hadds.trans hgone.adds).not_undone
        · rw [hout]
          exact hadds.not_undone
      · rw [forkProcess_no_arena s c r a hfind hcopies hmade]
        exact iff_of_true ((undone_joined_iff (begun_leaves s)).mp (Leaves.refl _).undone) hmade
    | false =>
      have hengine : (s.begun.engineIn (joinMark parent).space (joinMark parent).is32bit
          a.sessionContext).1 = (s.engineIn parent.space parent.is32bit a.sessionContext).1 := by
        rw [joinMark_eq]
        exact engineIn_fst s s.begun rfl rfl rfl parent.space parent.is32bit a.sessionContext
      have hleaves := (begun_leaves s).trans
        (engineIn_leaves s.begun (joinMark parent).space (joinMark parent).is32bit a.sessionContext)
      rw [forkProcess_borrowing s c r a hfind hcopies] at herr ⊢
      simp only [hengine] at herr ⊢
      generalize (s.begun.engineIn (joinMark parent).space (joinMark parent).is32bit
        a.sessionContext).2 = s₂ at herr hleaves ⊢
      rw [← undone_joined_iff hleaves]
      cases hgo : (s.engineIn parent.space parent.is32bit a.sessionContext).1 && a.threadForked with
      | false =>
        refine iff_of_true (Leaves.refl s₂).undone ?_
        rintro ⟨-, hthread, hcontext, -⟩
        simp [hthread, hcontext] at hgo
      | true =>
        simp only [hgo, Bool.false_eq_true] at herr ⊢
        rw [startChild_neg _ herr]
        rw [Bool.and_eq_true] at hgo
        have hparent : s₂.find r.caller = some (joinMark parent) := by
          rw [hleaves.find, find_joinFinishedChildren, hfind, Option.map_some]
        have hnone : s₂.find s.table.nextPid = none := by
          rw [hleaves.find, find_joinFinishedChildren, hfresh, Option.map_none]
        have hthreads : (joinMark parent).threads = parent.threads := by rw [joinMark_eq]
        have hundone := startChild_undone_iff s₂ c r a hparent hnone
          (s.begun.forkedChild r false (joinMark parent) (joinMark parent).space)
        rw [frozenBy_joinMark, hthreads] at hundone
        simp only [hgo.1, hgo.2, true_and]
        exact hundone

def started (is32bit : Bool) (space : SpacePtr) (threads : List GuestThreadRecord) :
    ProcessRecord where
  ppid := 0
  path := []
  is32bit := is32bit
  guestBase := 0
  space := space
  previousSpace := .null
  borrowedSpace := .null
  syscalls := .new is32bit 0
  program := ⟨⟨0, 0, 0, 0, 0, 0, 0⟩, ⟨0, 0, 0, 0, 0, 0, 0⟩, ⟨0, 0, 0⟩, false, 0, 0, is32bit, 0⟩
  ownsProgram := true
  previous := none
  threads := threads
  threadStarted := false
  frozenThreads := []
  finished := false
  joined := false
  exitStatus := 0

def startedSession (p : ProcessRecord) : FathomSession where
  space := .new .oneMegabyte
  arenas32 := ⟨[], 0, List.nodup_nil, fun _ h => (nomatch h)⟩
  engine32 := true
  engine64 := true
  table := ProcessTable.insert ⟨fun _ => none, 1, fun _ _ => rfl⟩ 1 p
  freezes := 0
  host := .fresh

def defaultSettings : Settings where
  cowForks := true
  freezeForCopy := true
  freezeWanted := false
  borrowDisabled := false
  relocate64 := false
  guestRoot := []
  stackSize := 0x4000

def noThread : ForkAnswers where
  reserved := some .nextMegabyte
  arenaContext := true
  sessionContext := true
  stops := fun _ => true
  shared := []
  threadForked := true
  hostThread := false

theorem failed_fork_leaves_arena :
    let s := startedSession (started false .session [⟨2, true, false⟩])
    let out := s.forkProcess defaultSettings ⟨1, 1, 0, false⟩ noThread
    out.1 = -11 ∧ out.2.find 2 = none ∧ s.arenaIds = [] ∧ out.2.arenaIds = [0] ∧
      (s.find 1).map frozenThreads = some [] ∧
      (out.2.find 1).map frozenThreads = some [2] ∧
      out.2.freezes = 1 ∧ ¬ ForkUndone s out.2 := by
  intro s out
  have hids : s.arenaIds = [] ∧ out.2.arenaIds = [0] := ⟨by rfl, by rfl⟩
  refine ⟨by rfl, by rfl, hids.1, hids.2, by rfl, by rfl, by rfl, fun h => ?_⟩
  exact absurd (h.spaces.ids.symm.trans hids.2) (by simp [hids.1])

theorem forkProcess_undone_iff_no_span :
    let s := startedSession (started false .session [⟨2, true, false⟩])
    let out := s.forkProcess defaultSettings ⟨1, 1, 0, false⟩ { noThread with reserved := none }
    out.1 < 0 ∧ ForkUndone s out.2 := by
  intro s out
  have herr : out.1 < 0 := by decide
  refine ⟨herr, (forkProcess_undone_iff s defaultSettings ⟨1, 1, 0, false⟩
    { noThread with reserved := none } herr).mpr ?_⟩
  intro ⟨parent, _, hleft⟩
  exact absurd hleft.1 (by simp)

end FathomSession

end Fathom
