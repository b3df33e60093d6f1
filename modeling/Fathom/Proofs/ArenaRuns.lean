import Fathom.Proofs.ExecFailure
import Mathlib.Algebra.Order.BigOperators.Group.Finset

/-!
# Which arenas a session keeps

An arena is kept by being named: as the space of a process that runs, as the one it ran
in before, or as the one it borrows. Nothing counts the names.
-/

namespace Fathom

open Lib ProcessRecord

/-! ## Names -/

namespace FathomSession

variable (s : FathomSession)

def LiveNames (pid : Nat) (ptr : SpacePtr) : Prop :=
  ∃ p, s.find pid = some p ∧ p.finished = false ∧ p.names ptr = true

/-- Every arena is named by a process that has not finished. -/
def Named : Prop := ∀ id ∈ s.arenaIds, ∃ pid, s.LiveNames pid (.own id)

def Issued : Prop :=
  ∀ pid p id, s.find pid = some p → p.names (.own id) = true → id < s.arenas32.next

/-- Every arena is named, and no process names one that was not made. -/
structure InUse : Prop where
  named : s.Named
  issued : s.Issued

structure NamedUnless (leak : Prop) : Prop where
  issued : s.Issued
  named_iff : s.Named ↔ ¬ leak

variable {s} {s' : FathomSession} {pid q : Nat} {ptr : SpacePtr}

theorem InUse.unless {leak : Prop} (hs : InUse s) (hnot : ¬ leak) : s.NamedUnless leak :=
  ⟨hs.issued, iff_of_true hs.named hnot⟩

theorem names_iff (p : ProcessRecord) :
    p.names ptr = true ↔ p.space = ptr ∨ p.borrowedSpace = ptr ∨ p.previousSpace = ptr := by
  simp [names, or_assoc]

theorem names_of_naming {p p' : ProcessRecord} (h : p'.naming = p.naming) (ptr : SpacePtr) :
    p'.names ptr = p.names ptr ∧ p'.finished = p.finished := by
  simp only [naming, Prod.mk.injEq] at h
  obtain ⟨hfinished, hspace, hprevious, hborrowed⟩ := h
  simp [names, hfinished, hspace, hprevious, hborrowed]

variable {p : ProcessRecord}

section

variable (h : (s'.find q).map naming = (s.find q).map naming)
include h

theorem exists_of_naming (hp : s.find q = some p) :
    ∃ p', s'.find q = some p' ∧ p'.naming = p.naming := by
  rw [hp] at h
  exact Option.map_eq_some_iff.mp h

theorem liveNames_congr (ptr : SpacePtr) : s'.LiveNames q ptr ↔ s.LiveNames q ptr := by
  have hone : ∀ {s₁ s₂ : FathomSession}, (s₂.find q).map naming =
      (s₁.find q).map naming → s₁.LiveNames q ptr → s₂.LiveNames q ptr := by
    rintro _ _ heq ⟨p, hp, hlive, hnames⟩
    obtain ⟨p', hp', hnaming⟩ := exists_of_naming heq hp
    obtain ⟨hsame, hfinished⟩ := names_of_naming hnaming ptr
    exact ⟨p', hp', hfinished.trans hlive, hsame.trans hnames⟩
  exact ⟨hone h.symm, hone h⟩

end

/-! ## What makes or frees no name -/

theorem id_lt_next (hid : q ∈ s.arenaIds) : q < s.arenas32.next := by
  obtain ⟨arena, harena, rfl⟩ := List.mem_map.mp hid
  exact s.arenas32.fresh arena harena

variable {more : List Nat}

theorem Adds.liveNames_iff (h : Adds s more s') (q : Nat) (ptr : SpacePtr) :
    s'.LiveNames q ptr ↔ s.LiveNames q ptr :=
  liveNames_congr (h.names q) ptr

theorem Adds.issued (h : Adds s more s') (hs : s.Issued) : s'.Issued := by
  intro pid p' id hp' hnames
  obtain ⟨p, hp, hnaming⟩ := exists_of_naming (h.names pid).symm hp'
  rw [← (names_of_naming hnaming _).1] at hnames
  have hlt := hs pid p id hp hnames
  rw [h.next]
  omega

theorem Adds.named (h : Adds s [] s') (hs : s.Named) : s'.Named := by
  intro id hid
  rw [h.ids, List.append_nil] at hid
  obtain ⟨pid, hlive⟩ := hs id hid
  exact ⟨pid, (h.liveNames_iff pid _).mpr hlive⟩

theorem Adds.not_named (h : Adds s [s.arenas32.next] s') (hs : s.Issued) : ¬ s'.Named := by
  intro hnamed
  obtain ⟨pid, hlive⟩ := hnamed s.arenas32.next (by simp [h.ids])
  obtain ⟨p, hp, -, hnames⟩ := (h.liveNames_iff pid _).mp hlive
  exact Nat.lt_irrefl _ (hs pid p _ hp hnames)

theorem Adds.unnamed {leak : Prop} (h : Adds s [s.arenas32.next] s') (hs : s.Issued)
    (hleak : leak) : s'.NamedUnless leak :=
  ⟨h.issued hs, iff_of_false (h.not_named hs) (not_not_intro hleak)⟩

theorem Adds.inUse (h : Adds s [] s') (hs : s.InUse) : s'.InUse :=
  ⟨h.named hs.named, h.issued hs.issued⟩

/-! ## One process with other names -/

def namedBy (n : Bool × SpacePtr × SpacePtr × SpacePtr) (ptr : SpacePtr) : Prop :=
  n.2.1 = ptr ∨ n.2.2.2 = ptr ∨ n.2.2.1 = ptr

structure Renames (s : FathomSession) (pid : Nat) (n : Bool × SpacePtr × SpacePtr × SpacePtr)
    (s' : FathomSession) : Prop where
  ids : s'.arenaIds = s.arenaIds
  next : s'.arenas32.next = s.arenas32.next
  own : (s'.find pid).map naming = some n
  others : ∀ q, q ≠ pid → (s'.find q).map naming = (s.find q).map naming

theorem namedBy_naming (p : ProcessRecord) : namedBy p.naming ptr ↔ p.names ptr = true :=
  (names_iff p).symm

variable {n : Bool × SpacePtr × SpacePtr × SpacePtr}

section

variable (h : Renames s pid n s')
include h

theorem Renames.liveNames_own (ptr : SpacePtr) :
    s'.LiveNames pid ptr ↔ n.1 = false ∧ namedBy n ptr := by
  obtain ⟨p, hp, hnaming⟩ := Option.map_eq_some_iff.mp h.own
  subst hnaming
  rw [namedBy_naming]
  constructor
  · rintro ⟨p', hp', hlive, hnames⟩
    rw [hp] at hp'
    cases hp'
    exact ⟨hlive, hnames⟩
  · rintro ⟨hlive, hnames⟩
    exact ⟨p, hp, hlive, hnames⟩

theorem Renames.liveNames_other (hq : q ≠ pid) (ptr : SpacePtr) :
    s'.LiveNames q ptr ↔ s.LiveNames q ptr :=
  liveNames_congr (h.others q hq) ptr

theorem Renames.exists_liveNames_iff (ptr : SpacePtr) : (∃ q, s'.LiveNames q ptr) ↔
      (n.1 = false ∧ namedBy n ptr) ∨ ∃ q, q ≠ pid ∧ s.LiveNames q ptr := by
  constructor
  · rintro ⟨q, hlive⟩
    by_cases hq : q = pid
    · subst hq
      exact .inl ((h.liveNames_own ptr).mp hlive)
    · exact .inr ⟨q, hq, (h.liveNames_other hq ptr).mp hlive⟩
  · rintro (hown | ⟨q, hq, hlive⟩)
    · exact ⟨pid, (h.liveNames_own ptr).mpr hown⟩
    · exact ⟨q, (h.liveNames_other hq ptr).mpr hlive⟩

theorem Renames.issued (hs : s.Issued) (hn : ∀ id, namedBy n (.own id) → id < s.arenas32.next) :
    s'.Issued := by
  intro q p' id hp' hnames
  rw [h.next]
  by_cases hq : q = pid
  · subst hq
    have hown := h.own
    rw [hp', Option.map_some, Option.some.injEq] at hown
    subst hown
    exact hn id ((namedBy_naming p').mpr hnames)
  · obtain ⟨p, hp, hnaming⟩ := exists_of_naming (h.others q hq).symm hp'
    rw [← (names_of_naming hnaming _).1] at hnames
    exact hs q p id hp hnames

end

/-! ## Forks -/

theorem find_startChild (s : FathomSession) (pid : Nat) (child : ProcessRecord) (q : Nat) :
    (s.startChild pid child true).2.find q =
      if q = pid then some { child with threadStarted := true } else s.find q := by
  change (if q = pid then (if q = pid then some child else s.find q).map _
    else if q = pid then some child else s.find q) = _
  by_cases hq : q = pid
  · simp [hq]
  · simp [hq]

theorem startChild_renames (s : FathomSession) (pid : Nat) (child : ProcessRecord) :
    Renames s pid child.naming (s.startChild pid child true).2 := by
  refine ⟨rfl, rfl, ?_, fun q hq => ?_⟩
  · rw [find_startChild, if_pos rfl]
    rfl
  · rw [find_startChild, if_neg hq]

theorem startChild_inUse {child : ProcessRecord} (hadds : Adds s more s') (hs : s.InUse)
    (hfresh : s.find pid = none) (hlive : child.finished = false)
    (hmore : ∀ id ∈ more, child.names (.own id) = true)
    (hissued : ∀ id, child.names (.own id) = true → id < s.arenas32.next + more.length) :
    (s'.startChild pid child true).2.InUse := by
  have hnew := startChild_renames s' pid child
  refine ⟨fun id hid => ?_, hnew.issued (hadds.issued hs.issued) fun id hnamed => ?_⟩
  · rw [hnew.exists_liveNames_iff]
    rw [hnew.ids, hadds.ids, List.mem_append] at hid
    rcases hid with hold | hmade
    · obtain ⟨q, p, hp, hq⟩ := hs.named id hold
      have hne : q ≠ pid := by
        rintro rfl
        rw [hfresh] at hp
        cases hp
      exact .inr ⟨q, hne, (hadds.liveNames_iff q _).mpr ⟨p, hp, hq⟩⟩
    · exact .inl ⟨hlive, (namedBy_naming child).mpr (hmore id hmade)⟩
  · rw [hadds.next]
    exact hissued id ((namedBy_naming child).mp hnamed)

section

variable (s) (c : Settings) (r : ForkArguments) (a : ForkAnswers)

theorem freezeForBorrow_adds {parent : ProcessRecord} (hfind : s.find r.caller = some parent) :
    Adds s [] (s.freezeForBorrow c r a parent) := by
  have hfrozen := (freezes_otherThreads s c hfind r.thread false a.stops a.sessionContext).adds
  have hquiet := (Leaves.refl s).adds
  rw [freezeForBorrow]
  split
  · split
    · exact hfrozen.trans (thawThreads_adds _ _)
    · exact hquiet.trans (thawThreads_adds _ _)
  · split
    · exact hfrozen
    · exact hquiet

def ForkMakes : Prop :=
  (s.find r.caller).isSome = true ∧ r.copies c = true ∧
  a.reserved.isSome = true ∧ a.arenaContext = true

structure ChildOf (caller : Nat) (more : List Nat) (child : ProcessRecord) : Prop where
  live : child.finished = false
  made : ∀ id ∈ more, child.names (.own id) = true
  names : ∀ id, child.names (.own id) = true →
    id ∈ more ∨ ∃ parent, s.find caller = some parent ∧ parent.names (.own id) = true

theorem forkProcess_cases : ∃ more s₂, Adds s more s₂ ∧
    ((s.ForkMakes c r a ∧ more = [s.arenas32.next]) ∨ (¬ s.ForkMakes c r a ∧ more = [])) ∧
    ((∃ err, err < 0 ∧ s.forkProcess c r a = (err, s₂)) ∨ ∃ child, s.ChildOf r.caller more child ∧
        s.forkProcess c r a = s₂.startChild s.table.nextPid child true) := by
  have hfresh : s.find s.table.nextPid = none := s.table.fresh _ le_rfl
  cases hfind : s.find r.caller with
  | none =>
    have hnot : ¬ s.ForkMakes c r a := by
      rintro ⟨hsome, -⟩
      rw [hfind] at hsome
      cases hsome
    exact ⟨[], _, joinFinishedChildren_adds s, .inr ⟨hnot, rfl⟩,
      .inl ⟨-1, by decide, forkProcess_no_parent s c r a hfind⟩⟩
  | some parent =>
    have hsome : (s.find r.caller).isSome = true := by rw [hfind]; rfl
    cases hcopies : r.copies c with
    | true =>
      by_cases hmade : a.reserved.isSome = true ∧ a.arenaContext = true
      · obtain ⟨s₂, child, hadds, hnaming, hout⟩ := forkProcess_copying s c r a hfind hcopies hmade
        have hmakes : s.ForkMakes c r a := ⟨hsome, hcopies, hmade⟩
        split at hout
        · cases hthread : a.hostThread with
          | false =>
            rw [hthread] at hout
            obtain ⟨-, hgone⟩ := startChild_refused (hadds.find_none hfresh) child
            exact ⟨_, _, hadds.trans hgone.adds, .inl ⟨hmakes, rfl⟩, .inl ⟨-11, by decide, hout⟩⟩
          | true =>
            rw [hthread] at hout
            have hnames : ∀ id, child.names (.own id) = true ↔ s.arenas32.next = id := by
              intro id
              rw [← namedBy_naming, hnaming]
              simp [namedBy]
            refine ⟨_, s₂, hadds, .inl ⟨hmakes, rfl⟩, .inr ⟨child, ⟨?_, ?_, ?_⟩, hout⟩⟩
            · exact congrArg Prod.fst hnaming
            · exact fun id hid => (hnames id).mpr (List.mem_singleton.mp hid).symm
            · exact fun id hid => .inl (List.mem_singleton.mpr ((hnames id).mp hid).symm)
        · exact ⟨_, s₂, hadds, .inl ⟨hmakes, rfl⟩, .inl ⟨-11, by decide, hout⟩⟩
      · have hnot : ¬ s.ForkMakes c r a := fun h => hmade h.2.2
        exact ⟨[], _, begun_adds s, .inr ⟨hnot, rfl⟩,
          .inl ⟨-11, by decide, forkProcess_no_arena s c r a hfind hcopies hmade⟩⟩
    | false =>
      have hnot : ¬ s.ForkMakes c r a := fun h => absurd (hcopies.symm.trans h.2.1) (by simp)
      have hengine := (begun_adds s).trans (engineIn_leaves s.begun (joinMark parent).space
        (joinMark parent).is32bit a.sessionContext).adds
      have hparent : (s.begun.engineIn (joinMark parent).space (joinMark parent).is32bit
          a.sessionContext).2.find r.caller = some (joinMark parent) := by
        rw [(engineIn_leaves _ _ _ _).find, find_begun, hfind, Option.map_some]
      rw [forkProcess_borrowing s c r a hfind hcopies]
      simp only
      generalize s.begun.engineIn (joinMark parent).space (joinMark parent).is32bit
        a.sessionContext = engine at hengine hparent ⊢
      split
      · exact ⟨[], _, hengine, .inr ⟨hnot, rfl⟩, .inl ⟨-11, by decide, rfl⟩⟩
      · have hheld : Adds s [] (if r.ownStack then engine.2
            else engine.2.freezeForBorrow c r a (joinMark parent)) := by
          split
          · exact hengine
          · exact hengine.trans (freezeForBorrow_adds engine.2 c r a hparent)
        generalize (if r.ownStack then engine.2
          else engine.2.freezeForBorrow c r a (joinMark parent)) = s₃ at hheld ⊢
        cases a.hostThread with
        | false =>
          have hgone := (startChild_refused (hheld.find_none hfresh)
            (s.begun.forkedChild r false (joinMark parent) (joinMark parent).space)).2.adds
          exact ⟨[], _, hheld.trans hgone, .inr ⟨hnot, rfl⟩, .inl ⟨-11, by decide, rfl⟩⟩
        | true =>
          refine ⟨[], s₃, hheld, .inr ⟨hnot, rfl⟩,
            .inr ⟨_, ⟨rfl, by simp, fun id hid => .inr ⟨parent, hfind, ?_⟩⟩, rfl⟩⟩
          -- The child names what its parent runs in, and nothing else.
          have hspace : (joinMark parent).space = parent.space := by rw [joinMark_eq]
          rw [names_iff]
          rcases (names_iff _).mp hid with h | h | h
          · exact .inl (hspace.symm.trans h)
          · exact .inl (hspace.symm.trans h)
          · cases h

/-- The fork makes an arena, and the child gets no thread to run in it. -/
def ForkLeaks : Prop :=
  s.ForkMakes c r a ∧ ¬ (a.threadForked = true ∧ a.hostThread = true)

theorem forkLeaks_iff : s.ForkLeaks c r a ↔ (s.forkProcess c r a).1 < 0 ∧ s.ForkMakes c r a := by
  rw [ForkLeaks, and_comm]
  refine and_congr_left fun ⟨hsome, hcopies, hmade⟩ => ?_
  obtain ⟨_, hfind⟩ := Option.isSome_iff_exists.mp hsome
  obtain ⟨_, _, -, -, hout⟩ := forkProcess_copying s c r a hfind hcopies hmade
  rw [hout]
  cases a.threadForked with
  | false => simp
  | true => cases a.hostThread with
    | false => simp [startChild]
    | true => simp [startChild]

end

theorem forkProcess_named (hs : s.InUse) (c : Settings) (r : ForkArguments) (a : ForkAnswers) :
    (s.forkProcess c r a).2.NamedUnless (s.ForkLeaks c r a) := by
  obtain ⟨_, _, hadds, hmore, ⟨_, herr, hout⟩ | ⟨_, hchild, hout⟩⟩ := forkProcess_cases s c r a
  · simp only [forkLeaks_iff, hout, herr, true_and]
    rcases hmore with ⟨hmakes, rfl⟩ | ⟨hnot, rfl⟩
    · exact hadds.unnamed hs.issued hmakes
    · exact (hadds.inUse hs).unless hnot
  · have hfresh : s.find s.table.nextPid = none := s.table.fresh _ le_rfl
    rw [forkLeaks_iff, hout]
    refine InUse.unless ?_ fun h => absurd h.1 (by simp [startChild])
    refine startChild_inUse hadds hs hfresh hchild.live hchild.made fun id hid => ?_
    rcases hchild.names id hid with hmade | ⟨_, hparent, hnames⟩
    · rw [← hadds.next]
      exact id_lt_next (by rw [hadds.ids]; exact List.mem_append_right _ hmade)
    · exact Nat.lt_of_lt_of_le (hs.issued _ _ _ hparent hnames) (Nat.le_add_right _ _)

/-! ## Execs -/

def Abandons (s : FathomSession) (pid : Nat) (dropped : SpacePtr) (kept : List SpacePtr) : Prop :=
  ∃ id ∈ s.arenaIds, dropped = .own id ∧ SpacePtr.own id ∉ kept ∧
  ∀ q, q ≠ pid → ¬ s.LiveNames q (.own id)

def ProgramLeaks (s : FathomSession) (c : Settings) (a : ExecAnswers) (pid : Nat)
    (p : ProcessRecord) (e : ExecProgram) : Prop :=
  if (s.execProgram c a pid e).1.isSome then MakesArena c a e
  else s.Abandons pid p.previousSpace [p.space, p.borrowedSpace]

theorem adopt_renames (hfind : s.find pid = some p) (is32bit : Bool) (base : UInt64)
    (ptr : SpacePtr) (path : List Char) (loaded : LoadedProgram) :
    Renames s pid (p.finished, ptr, p.space, p.borrowedSpace)
      (s.modify pid (·.adopt is32bit base ptr path loaded)) := by
  refine ⟨rfl, rfl, ?_, fun q hq => ?_⟩
  · rw [find_modify, if_pos rfl, hfind]
    rfl
  · rw [find_modify, if_neg hq]

theorem Renames.named_iff_adopt {s₂ : FathomSession} (hs : s.InUse) (hfind : s.find pid = some p)
    (hadds : Adds s more s₂) (hptr : ∀ id, ptr = .own id ↔ id ∈ more)
    (hnew : ∀ id ∈ more, id ∉ s.arenaIds)
    (h : Renames s₂ pid (false, ptr, p.space, p.borrowedSpace) s') :
    s'.Named ↔ ¬ s.Abandons pid p.previousSpace [p.space, p.borrowedSpace] := by
  have hothers : ∀ id, (∃ q, q ≠ pid ∧ s₂.LiveNames q (.own id)) ↔
      ∃ q, q ≠ pid ∧ s.LiveNames q (.own id) := fun id =>
    exists_congr fun q => and_congr_right fun _ => hadds.liveNames_iff q _
  constructor
  · rintro hnamed ⟨id, hid, -, hkept, hnone⟩
    have hname := hnamed id (by rw [h.ids, hadds.ids]; exact List.mem_append_left _ hid)
    rw [h.exists_liveNames_iff, hothers] at hname
    rcases hname with ⟨-, hown | hborrowed | hspace⟩ | ⟨q, hq, hlive⟩
    · exact hnew id ((hptr id).mp hown) hid
    · exact hkept (by simp [show p.borrowedSpace = .own id from hborrowed])
    · exact hkept (by simp [show p.space = .own id from hspace])
    · exact hnone q hq hlive
  · intro hkeeps id hid
    rw [h.exists_liveNames_iff, hothers]
    rw [h.ids, hadds.ids, List.mem_append] at hid
    rcases hid with hold | hmade
    · by_cases hother : ∃ q, q ≠ pid ∧ s.LiveNames q (.own id)
      · exact .inr hother
      · refine .inl ⟨rfl, ?_⟩
        obtain ⟨q, hlive⟩ := hs.named id hold
        have hq : q = pid := by
          by_contra hq
          exact hother ⟨q, hq, hlive⟩
        subst hq
        obtain ⟨p', hp', -, hnames⟩ := hlive
        rw [hfind] at hp'
        cases hp'
        rcases (names_iff p).mp hnames with hspace | hborrowed | hprevious
        · exact .inr (.inr hspace)
        · exact .inr (.inl hborrowed)
        · by_contra hnot
          refine hkeeps ⟨id, hold, hprevious, fun hmem => hnot ?_, fun q hq hlive =>
            hother ⟨q, hq, hlive⟩⟩
          rcases List.mem_cons.mp hmem with hspace | hmem
          · exact .inr (.inr hspace.symm)
          · exact .inr (.inl (List.mem_singleton.mp hmem).symm)
    · exact .inl ⟨rfl, .inl ((hptr id).mpr hmade)⟩

theorem execProgram_named (hs : s.InUse) (hfind : s.find pid = some p) (hlive : p.finished = false)
    (c : Settings) (a : ExecAnswers) (e : ExecProgram) :
    (s.execProgram c a pid e).2.NamedUnless (s.ProgramLeaks c a pid p e) := by
  obtain ⟨ptr, s₂, hreached, hend⟩ := execProgram_cases hfind c a e
  rcases hend with ⟨_, hout⟩ | ⟨is32bit, base, loaded, hout⟩
  · simp only [ProgramLeaks, hout]
    rcases hreached.arenas with ⟨hmakes, -, hadds⟩ | ⟨hnot, -, hadds, -⟩
    · exact hadds.unnamed hs.issued hmakes
    · exact (hadds.inUse hs).unless hnot
  · simp only [ProgramLeaks, hout]
    have hadopt := adopt_renames hreached.find is32bit base ptr e.path loaded
    rw [hlive] at hadopt
    have hpointers : ∃ more, Adds s more s₂ ∧ (∀ id, ptr = .own id ↔ id ∈ more) ∧
        (∀ id ∈ more, id ∉ s.arenaIds ∧ id < s₂.arenas32.next) := by
      rcases hreached.arenas with ⟨-, rfl, hadds⟩ | ⟨-, rfl, hadds, -⟩
      · refine ⟨_, hadds, fun id => by simp [eq_comm], fun id hid => ?_⟩
        rw [List.mem_singleton.mp hid, hadds.next]
        exact ⟨fun h => Nat.lt_irrefl _ (id_lt_next h), Nat.lt_succ_self _⟩
      · exact ⟨_, hadds, fun id => by simp, fun id hid => absurd hid List.not_mem_nil⟩
    obtain ⟨_, hadds, hptr, hmore⟩ := hpointers
    have hnamed := Renames.named_iff_adopt hs hfind hadds hptr (fun id hid => (hmore id hid).1)
      hadopt
    have hissued := hadopt.issued (hadds.issued hs.issued) fun id hid => by
      have hold : p.names (.own id) = true → id < s₂.arenas32.next := fun hnames =>
        Nat.lt_of_lt_of_le (hs.issued pid p id hfind hnames) (by rw [hadds.next]; omega)
      rcases hid with hown | hborrowed | hspace
      · exact (hmore id ((hptr id).mp hown)).2
      · exact hold ((names_iff p).mpr (.inr (.inl hborrowed)))
      · exact hold ((names_iff p).mpr (.inl hspace))
    exact ⟨hissued, hnamed⟩

/-! ## Exits -/

section

variable (s)

theorem releaseProgramIn_adds (ptr : SpacePtr) (program : LoadedProgram) :
    Adds s [] (s.releaseProgramIn ptr program) := by
  rw [releaseProgramIn]
  split
  · exact (Leaves.refl s).adds
  · exact setSpace_adds s ptr _ _

section

variable (pid)

theorem releaseParent_adds : Adds s [] (s.releaseParent pid) := by
  rw [releaseParent]
  split
  · exact (Leaves.refl s).adds
  · exact thawThreads_adds s _

theorem execed_adds : Adds s [] (s.execed pid) := by
  have hparent := releaseParent_adds s pid
  rw [execed]
  split
  · exact hparent
  · split
    · exact hparent
    · exact (hparent.trans (releaseProgramIn_adds _ _ _)).trans
        (.of_spaces ⟨rfl, rfl⟩ (names_of_find (find_modify _ pid · _) fun _ => rfl))

section

variable (ptr)

theorem usedByOther_iff : s.usedByOther pid ptr = true ↔ ∃ q, q ≠ pid ∧ s.LiveNames q ptr := by
  simp only [usedByOther, List.any_eq_true, List.mem_range, Bool.and_eq_true, bne_iff_ne,
    Option.any_eq_true, Bool.not_eq_true']
  constructor
  · rintro ⟨q, -, hq, p, hp, hlive, hnames⟩
    exact ⟨q, hq, p, hp, hlive, hnames⟩
  · rintro ⟨q, hq, p, hp, hlive, hnames⟩
    refine ⟨q, ?_, hq, p, hp, hlive, hnames⟩
    by_contra hle
    have hnone := s.table.fresh q (Nat.le_of_not_lt hle)
    rw [find, hnone] at hp
    cases hp

theorem mem_releaseArena (id : Nat) : id ∈ (s.releaseArena pid ptr).arenaIds ↔
      id ∈ s.arenaIds ∧ ¬ (ptr = .own id ∧ ¬ ∃ q, q ≠ pid ∧ s.LiveNames q ptr) := by
  rw [← usedByOther_iff]
  cases ptr with
  | null => simp [releaseArena]
  | session => simp [releaseArena]
  | own _ =>
    rw [releaseArena]
    split
    next hused => simp [hused]
    next hfree =>
      simp only [arenaIds, Arenas.erase, List.mem_map, List.mem_filter, bne_iff_ne,
        SpacePtr.own.injEq, hfree]
      constructor
      · rintro ⟨arena, ⟨harena, hne⟩, rfl⟩
        exact ⟨⟨arena, harena, rfl⟩, fun h => hne h.1.symm⟩
      · rintro ⟨⟨arena, harena, rfl⟩, hne⟩
        exact ⟨arena, ⟨harena, fun h => hne ⟨h.symm, by simp⟩⟩, rfl⟩

theorem releaseArena_rest : (s.releaseArena pid ptr).table = s.table ∧
      (s.releaseArena pid ptr).arenas32.next = s.arenas32.next := by
  cases ptr with
  | null => exact ⟨rfl, rfl⟩
  | session => exact ⟨rfl, rfl⟩
  | own id =>
    rw [releaseArena]
    split
    · exact ⟨rfl, rfl⟩
    · exact ⟨rfl, rfl⟩

end

end

end

section

variable (s : FathomSession) (pid : Nat) (p : ProcessRecord)

def Spent (id : Nat) : Prop :=
  (p.space = .own id ∨ p.previousSpace = .own id) ∧ ¬ ∃ q, q ≠ pid ∧ s.LiveNames q (.own id)

theorem mem_releaseBoth (id : Nat) :
    id ∈ ((s.releaseArena pid p.space).releaseArena pid p.previousSpace).arenaIds ↔
    id ∈ s.arenaIds ∧ ¬ s.Spent pid p id := by
  have hlive : ∀ q ptr, (s.releaseArena pid p.space).LiveNames q ptr ↔ s.LiveNames q ptr := by
    intro q ptr
    simp only [LiveNames, find, (releaseArena_rest s pid p.space).1]
  rw [mem_releaseArena, mem_releaseArena, and_assoc]
  refine and_congr_right fun _ => ?_
  simp only [hlive]
  constructor
  · rintro ⟨hspace, hprevious⟩ ⟨heq | heq, hnone⟩
    · exact hspace ⟨heq, heq ▸ hnone⟩
    · exact hprevious ⟨heq, heq ▸ hnone⟩
  · intro hnot
    exact ⟨fun h => hnot ⟨.inl h.1, h.1 ▸ h.2⟩, fun h => hnot ⟨.inr h.1, h.1 ▸ h.2⟩⟩

structure Frees (s' : FathomSession) : Prop where
  ids : ∀ id, id ∈ s'.arenaIds ↔ id ∈ s.arenaIds ∧ ¬ s.Spent pid p id
  next : s'.arenas32.next = s.arenas32.next
  others : ∀ q, q ≠ pid → s'.find q = s.find q
  own : ∃ p', s'.find pid = some p' ∧ p'.finished = p.finished ∧
    ∀ id, p'.names (.own id) = true → p.names (.own id) = true

end

theorem releaseOwnArenas_frees (hfind : s.find pid = some p) :
    Frees s pid p (s.releaseOwnArenas pid) := by
  have htable : ((s.releaseArena pid p.space).releaseArena pid p.previousSpace).table = s.table :=
    (releaseArena_rest _ _ _).1.trans (releaseArena_rest _ _ _).1
  have hnext : ((s.releaseArena pid p.space).releaseArena pid p.previousSpace).arenas32.next =
      s.arenas32.next :=
    (releaseArena_rest _ _ _).2.trans (releaseArena_rest _ _ _).2
  have hmem := mem_releaseBoth s pid p
  have hsame : ∀ q,
      ((s.releaseArena pid p.space).releaseArena pid p.previousSpace).find q = s.find q := by
    intro q
    rw [find, htable]
    rfl
  simp only [releaseOwnArenas, hfind]
  split
  · exact ⟨hmem, hnext, fun q _ => hsame q, p, (hsame pid).trans hfind, rfl, fun _ h => h⟩
  · refine ⟨hmem, hnext, fun q hq => ?_, { p with
        space := if p.space = .session then .session else .null
        previousSpace := .null }, ?_, rfl, fun id hid => ?_⟩
    · rw [find_modify, if_neg hq, hsame]
    · rw [find_modify, if_pos rfl, hsame, hfind]
      rfl
    · rcases (names_iff _).mp hid with h | h | h
      · split at h
        · cases h
        · cases h
      · exact (names_iff p).mpr (.inr (.inl h))
      · cases h

def withoutProgram (s : FathomSession) (pid : Nat) : FathomSession :=
  match s.find pid with
  | none => s
  | some p => if p.ownsProgram then s.releaseProgramIn p.space p.program else s

theorem withoutProgram_adds (s : FathomSession) (pid : Nat) : Adds s [] (s.withoutProgram pid) := by
  rw [withoutProgram]
  split
  · exact (Leaves.refl s).adds
  · split
    · exact releaseProgramIn_adds s _ _
    · exact (Leaves.refl s).adds

/-! A program that goes is given back in its own arena, and no other arena changes. -/

theorem SameSpaces.spaceAt (h : SameSpaces s s') (ptr : SpacePtr) :
    s'.spaceAt ptr = s.spaceAt ptr := by
  cases ptr with
  | null => rfl
  | session => exact congrArg some h.space
  | own id => exact congrArg (Arenas.find · id) h.arenas

theorem find_set_of_ne (t : Arenas) {id other : Nat} (hne : other ≠ id)
    (space : GuestAddressSpace) : (t.set id space).find other = t.find other := by
  simp only [Arenas.find, Arenas.set]
  induction t.arenas with
  | nil => rfl
  | cons a _ ih =>
    by_cases ha : a.id = id
    · have hskip : (id == other) = false := by simp [Ne.symm hne]
      simpa only [List.map_cons, List.find?_cons, ha, if_true, hskip] using ih
    · rw [List.map_cons, if_neg ha, List.find?_cons, List.find?_cons]
      split
      · rfl
      · exact ih

theorem spaceAt_setSpace {other : SpacePtr} (hne : other ≠ ptr) (space : GuestAddressSpace)
    (host : Host) : (s.setSpace ptr space host).spaceAt other = s.spaceAt other := by
  cases other with
  | null => rfl
  | session =>
    cases ptr with
    | session => exact absurd rfl hne
    | null | own _ => rfl
  | own _ =>
    cases ptr with
    | null | session => rfl
    | own id =>
      refine find_set_of_ne s.arenas32 ?_ space
      exact fun h => hne (congrArg SpacePtr.own h)

theorem spaceAt_releaseProgramIn {other : SpacePtr} (hne : other ≠ ptr) (program : LoadedProgram) :
    (s.releaseProgramIn ptr program).spaceAt other = s.spaceAt other := by
  rw [releaseProgramIn]
  split
  · rfl
  · exact spaceAt_setSpace hne _ _

theorem releaseParent_spaces (s : FathomSession) (pid : Nat) :
    SameSpaces s (s.releaseParent pid) := by
  rw [releaseParent]
  split
  · exact .refl s
  · exact thawThreads_spaces s _

section

variable (hfind : s.find pid = some p)
include hfind

theorem find_releaseParent (q : Nat) :
    ∃ frozen, (s.releaseParent q).find pid = some { p with frozenThreads := frozen } := by
  rw [releaseParent]
  split
  · exact ⟨p.frozenThreads, hfind⟩
  · rw [find_thawThreads]
    split
    · exact ⟨[], by rw [hfind, Option.map_some]⟩
    · exact ⟨p.frozenThreads, hfind⟩

theorem spaceAt_withoutProgram (ptr : SpacePtr)
    (hne : p.ownsProgram = true → ptr ≠ p.space) :
    (((s.stopAndJoinThreadsOf pid).releaseParent pid).withoutProgram pid).spaceAt ptr =
      s.spaceAt ptr := by
  have hstopped : (s.stopAndJoinThreadsOf pid).find pid = some { p with threads := [] } := by
    rw [stopAndJoinThreadsOf, find_modify, if_pos rfl, hfind, Option.map_some]
  have hparent := (releaseParent_spaces (s.stopAndJoinThreadsOf pid) pid).spaceAt ptr
  obtain ⟨_, hfound⟩ := find_releaseParent hstopped pid
  simp only [withoutProgram, hfound]
  split
  next howns => exact (spaceAt_releaseProgramIn (hne howns) _).trans hparent
  next => exact hparent

theorem finishProcess_renames (status : Int) :
    ∃ s₃ p₃, Renames s pid (true, p.space, p.previousSpace, p.borrowedSpace) s₃ ∧
    s₃.find pid = some p₃ ∧ p₃.naming = (true, p.space, p.previousSpace, p.borrowedSpace) ∧
    s.finishProcess pid status = s₃.releaseOwnArenas pid ∧
    ∀ ptr, (p.ownsProgram = true → ptr ≠ p.space) → s₃.spaceAt ptr = s.spaceAt ptr := by
  have hreleased := ((stopAndJoinThreadsOf_adds s pid).trans (releaseParent_adds _ pid)).trans
    (withoutProgram_adds ((s.stopAndJoinThreadsOf pid).releaseParent pid) pid)
  have hout : s.finishProcess pid status =
      ((((s.stopAndJoinThreadsOf pid).releaseParent pid).withoutProgram pid).modify pid fun p =>
        { p with finished := true, exitStatus := status }).releaseOwnArenas pid := rfl
  have hspaces := spaceAt_withoutProgram hfind
  rw [hout]
  generalize ((s.stopAndJoinThreadsOf pid).releaseParent pid).withoutProgram pid = s₂
    at hreleased hspaces ⊢
  obtain ⟨p₂, hp₂, hnaming⟩ := exists_of_naming (hreleased.names pid) hfind
  have hp₃ : (s₂.modify pid fun p => { p with finished := true, exitStatus := status }).find pid =
      some { p₂ with finished := true, exitStatus := status } := by
    rw [find_modify, if_pos rfl, hp₂]
    rfl
  have hpointers : p₂.space = p.space ∧ p₂.previousSpace = p.previousSpace ∧
      p₂.borrowedSpace = p.borrowedSpace := by
    simp only [naming, Prod.mk.injEq] at hnaming
    exact hnaming.2
  have hdone : ({ p₂ with finished := true, exitStatus := status }).naming =
      (true, p.space, p.previousSpace, p.borrowedSpace) := by
    simp only [naming, hpointers]
  refine ⟨_, _, ⟨?_, ?_, ?_, fun q hq => ?_⟩, hp₃, hdone, rfl, hspaces⟩
  · exact hreleased.ids.trans (List.append_nil _)
  · exact hreleased.next
  · rw [hp₃, Option.map_some, hdone]
  · rw [find_modify, if_neg hq]
    exact hreleased.names q

theorem finishProcess_spec (status : Int) :
    (∀ id, id ∈ (s.finishProcess pid status).arenaIds ↔ id ∈ s.arenaIds ∧ ¬ s.Spent pid p id) ∧
    (∀ q ptr, (s.finishProcess pid status).LiveNames q ptr ↔ q ≠ pid ∧ s.LiveNames q ptr) ∧
    (s.Issued → (s.finishProcess pid status).Issued) := by
  obtain ⟨s₃, p₃, hrenames, hp₃, hnaming, hout, -⟩ := finishProcess_renames hfind status
  have hfrees := releaseOwnArenas_frees hp₃
  rw [hout]
  generalize s₃.releaseOwnArenas pid = s₄ at hfrees ⊢
  have hpointers : p₃.finished = true ∧ p₃.space = p.space ∧
      p₃.previousSpace = p.previousSpace ∧ p₃.borrowedSpace = p.borrowedSpace := by
    simp only [naming, Prod.mk.injEq] at hnaming
    exact hnaming
  have hothers : ∀ q ptr, q ≠ pid → (s₄.LiveNames q ptr ↔ s.LiveNames q ptr) := by
    intro q ptr hq
    rw [← hrenames.liveNames_other hq]
    simp only [LiveNames, hfrees.others q hq]
  have hspent : ∀ id, s₃.Spent pid p₃ id ↔ s.Spent pid p id := by
    intro id
    simp only [Spent, hpointers]
    refine and_congr_right fun _ => not_congr (exists_congr fun q => and_congr_right fun hq => ?_)
    exact hrenames.liveNames_other hq _
  obtain ⟨_, hp₄, hfinished, hnames⟩ := hfrees.own
  refine ⟨fun id => ?_, fun q ptr => ?_, fun hissued => ?_⟩
  · rw [hfrees.ids, hrenames.ids, hspent]
  · by_cases hq : q = pid
    · subst hq
      refine iff_of_false ?_ fun h => h.1 rfl
      rintro ⟨p', hp', hlive, -⟩
      rw [hp₄] at hp'
      cases hp'
      rw [hfinished, hpointers.1] at hlive
      cases hlive
    · simp [hothers q ptr hq, hq]
  · have hrenamed := hrenames.issued hissued fun id hid => by
      refine hissued pid p id hfind ((names_iff p).mpr ?_)
      exact hid
    intro q p' id hp' hid
    rw [hfrees.next]
    by_cases hq : q = pid
    · subst hq
      rw [hp₄] at hp'
      cases hp'
      exact hrenamed q p₃ id hp₃ (hnames id hid)
    · rw [hfrees.others q hq] at hp'
      exact hrenamed q p' id hp' hid

end

theorem finishProcess_named (hs : s.InUse) (hfind : s.find pid = some p) (status : Int) :
    (s.finishProcess pid status).NamedUnless
      (s.Abandons pid p.borrowedSpace [p.space, p.previousSpace]) := by
  obtain ⟨hids, hlive, hissued⟩ := finishProcess_spec hfind status
  refine ⟨hissued hs.issued, ?_, ?_⟩
  · rintro h ⟨id, hid, -, hkept, hnone⟩
    have hstays : id ∈ (s.finishProcess pid status).arenaIds := by
      refine (hids id).mpr ⟨hid, fun hspent => hkept ?_⟩
      rcases hspent.1 with hspace | hprevious
      · simp [hspace]
      · simp [hprevious]
    obtain ⟨q, hq⟩ := h id hstays
    rw [hlive] at hq
    exact hnone q hq.1 hq.2
  · intro hkeeps id hid
    obtain ⟨hold, hunspent⟩ := (hids id).mp hid
    by_contra hnone
    have hothers : ¬ ∃ q, q ≠ pid ∧ s.LiveNames q (.own id) := by
      rintro ⟨q, hq⟩
      exact hnone ⟨q, (hlive q _).mpr hq⟩
    obtain ⟨q, hq⟩ := hs.named id hold
    have hpid : q = pid := by
      by_contra hne
      exact hothers ⟨q, hne, hq⟩
    subst hpid
    obtain ⟨p', hp', -, hnames⟩ := hq
    rw [hfind] at hp'
    cases hp'
    -- It was the process's own, and is not one of the two that were looked at.
    have hspace : p.space ≠ .own id := fun h => hunspent ⟨.inl h, hothers⟩
    have hprevious : p.previousSpace ≠ .own id := fun h => hunspent ⟨.inr h, hothers⟩
    rcases (names_iff p).mp hnames with h | h | h
    · exact hspace h
    · refine hkeeps ⟨id, hold, h, ?_, fun q hq hlive => hothers ⟨q, hq, hlive⟩⟩
      simp [Ne.symm hspace, Ne.symm hprevious]
    · exact hprevious h

/-! ## Waits -/

theorem waitForChild_cases (s : FathomSession) (callerPid : Nat) (wantedPid : Int) :
    (s.waitForChild callerPid wantedPid).2 = s ∨ ∃ pid p, s.find pid = some p ∧ p.finished = true ∧
        (s.waitForChild callerPid wantedPid).2 = { s with table := s.table.erase pid } := by
  rw [waitForChild]
  split
  next pid hpid =>
    have hdone := List.find?_some hpid
    simp only [Bool.and_eq_true, Option.any_eq_true] at hdone
    obtain ⟨p, hp, hfinished⟩ := hdone.2
    exact .inr ⟨pid, p, hp, hfinished, rfl⟩
  next =>
    split
    · exact .inl rfl
    · exact .inl rfl

theorem find_reaped (s : FathomSession) (pid q : Nat) :
    ({ s with table := s.table.erase pid } : FathomSession).find q =
      if q = pid then none else s.find q := rfl

theorem waitForChild_inUse (hs : s.InUse) (callerPid : Nat) (wantedPid : Int) :
    (s.waitForChild callerPid wantedPid).2.InUse := by
  rcases waitForChild_cases s callerPid wantedPid with heq | ⟨_, p, hp, hfinished, heq⟩
  · rw [heq]
    exact hs
  · rw [heq]
    refine ⟨fun id hid => ?_, fun q p' id hp' hid => ?_⟩
    · obtain ⟨q, p', hp', hlive, hnames⟩ := hs.named id hid
      refine ⟨q, p', ?_, hlive, hnames⟩
      rw [find_reaped, if_neg]
      · exact hp'
      · rintro rfl
        rw [hp] at hp'
        cases hp'
        rw [hfinished] at hlive
        cases hlive
    · rw [find_reaped] at hp'
      split at hp'
      · cases hp'
      · exact hs.issued q p' id hp' hid

/-! ## Runs -/

def Leaks (s : FathomSession) (c : Settings) : ProcessEvent → Prop
  | .fork r a => s.ForkLeaks c r a
  | .exec pid a k hops r envp => ∃ p hostPath path argv, s.find pid = some p ∧ p.finished = false ∧
      execResolve k c.guestRoot ⟨pid, p.path⟩ hops r = some (.program hostPath path argv) ∧
      s.ProgramLeaks c a pid p ⟨k.programFiles c.guestRoot hostPath, hostPath, path, argv, envp⟩
  | .execed _ => False
  | .exit pid _ => ∃ p, s.find pid = some p ∧ p.finished = false ∧ p.threadStarted = true ∧
      s.Abandons pid p.borrowedSpace [p.space, p.previousSpace]
  | .wait _ _ => False

theorem live_iff :
    (s.find pid).any (!·.finished) = true ↔ ∃ p, s.find pid = some p ∧ p.finished = false := by
  simp [Option.any_eq_true]

theorem ends_iff : ((s.find pid).any fun p => !p.finished && p.threadStarted) = true ↔
    ∃ p, s.find pid = some p ∧ p.finished = false ∧ p.threadStarted = true := by
  simp [Option.any_eq_true]

theorem execProcess_step (hfind : s.find pid = some p) (hlive : p.finished = false) (c : Settings)
    (a : ExecAnswers) (k : HostContents) (hops : Nat) (r : ExecRequest) (envp : List (List Char)) :
    (s.step c (.exec pid a k hops r envp) = s ∧ ¬ s.Leaks c (.exec pid a k hops r envp)) ∨
    ∃ e, s.step c (.exec pid a k hops r envp) = (s.execProgram c a pid e).2 ∧
    s.execProcess c a k hops pid r envp = some (s.execProgram c a pid e) ∧
    (s.Leaks c (.exec pid a k hops r envp) ↔ s.ProgramLeaks c a pid p e) := by
  have hguard := live_iff.mpr ⟨p, hfind, hlive⟩
  have hleaks : s.Leaks c (.exec pid a k hops r envp) ↔ ∃ hostPath path argv,
      execResolve k c.guestRoot ⟨pid, p.path⟩ hops r = some (.program hostPath path argv) ∧
      s.ProgramLeaks c a pid p
        ⟨k.programFiles c.guestRoot hostPath, hostPath, path, argv, envp⟩ := by
    constructor
    · rintro ⟨p', hostPath, path, argv, hp', -, hresolve, h⟩
      rw [hfind] at hp'
      cases hp'
      exact ⟨hostPath, path, argv, hresolve, h⟩
    · rintro ⟨hostPath, path, argv, hresolve, h⟩
      exact ⟨p, hostPath, path, argv, hfind, hlive, hresolve, h⟩
  rw [hleaks]
  simp only [step, hguard]
  simp only [execProcess, hfind]
  cases hresolve : execResolve k c.guestRoot ⟨pid, p.path⟩ hops r with
  | none => exact .inl ⟨rfl, by simp⟩
  | some found =>
    cases found with
    | missing => exact .inl ⟨rfl, by simp⟩
    | program hostPath path argv =>
      refine .inr ⟨_, rfl, rfl, ?_⟩
      simp only [Option.some.injEq, ExecEnd.program.injEq]
      constructor
      · rintro ⟨_, _, _, ⟨rfl, rfl, rfl⟩, h⟩
        exact h
      · intro h
        exact ⟨hostPath, path, argv, ⟨rfl, rfl, rfl⟩, h⟩

theorem step_named (hs : s.InUse) (c : Settings) (e : ProcessEvent) :
    (s.step c e).NamedUnless (s.Leaks c e) := by
  cases e with
  | fork r a => exact forkProcess_named hs c r a
  | exec pid a k hops r envp =>
    by_cases hguard : ∃ p, s.find pid = some p ∧ p.finished = false
    · obtain ⟨p, hfind, hlive⟩ := hguard
      rcases execProcess_step hfind hlive c a k hops r envp with
        ⟨hsame, hnot⟩ | ⟨e, hout, -, hleaks⟩
      · rw [hsame]
        exact hs.unless hnot
      · rw [hout, hleaks]
        exact execProgram_named hs hfind hlive c a e
    · have hidle : s.step c (.exec pid a k hops r envp) = s := if_neg (mt live_iff.mp hguard)
      rw [hidle]
      refine hs.unless ?_
      rintro ⟨p, -, -, -, hp, hlive, -⟩
      exact hguard ⟨p, hp, hlive⟩
  | execed pid =>
    refine InUse.unless ?_ id
    rw [step]
    split
    · exact (execed_adds s pid).inUse hs
    · exact hs
  | exit pid status =>
    by_cases hguard : ∃ p, s.find pid = some p ∧ p.finished = false ∧ p.threadStarted = true
    · obtain ⟨p, hfind, hlive, hstarted⟩ := hguard
      have hout : s.step c (.exit pid status) = s.finishProcess pid status :=
        if_pos (ends_iff.mpr ⟨p, hfind, hlive, hstarted⟩)
      have hleaks : s.Leaks c (.exit pid status) ↔
          s.Abandons pid p.borrowedSpace [p.space, p.previousSpace] := by
        refine ⟨?_, fun h => ⟨p, hfind, hlive, hstarted, h⟩⟩
        rintro ⟨p', hp', -, -, h⟩
        rw [hfind] at hp'
        cases hp'
        exact h
      rw [hout, hleaks]
      exact finishProcess_named hs hfind status
    · have hidle : s.step c (.exit pid status) = s := if_neg (mt ends_iff.mp hguard)
      rw [hidle]
      refine hs.unless ?_
      rintro ⟨p, hp, hlive, hstarted, -⟩
      exact hguard ⟨p, hp, hlive, hstarted⟩
  | wait _ _ => exact (waitForChild_inUse hs _ _).unless id

section

variable (s : FathomSession) (c : Settings)

theorem step_keeps_arenas {e : ProcessEvent}
    (he : ∀ pid status, e ≠ .exit pid status) : s.arenaIds ⊆ (s.step c e).arenaIds := by
  have hkept : ∀ {more : List Nat} {s₂ : FathomSession}, Adds s more s₂ →
      (s.step c e).arenaIds = s₂.arenaIds → s.arenaIds ⊆ (s.step c e).arenaIds := by
    intro more s₂ hadds hids
    rw [hids, hadds.ids]
    exact List.subset_append_left _ _
  have hquiet := fun h : s.step c e = s => hkept (Leaves.refl s).adds (congrArg arenaIds h)
  cases e with
  | fork r a =>
    obtain ⟨_, _, hadds, -, ⟨_, -, hout⟩ | ⟨_, -, hout⟩⟩ := forkProcess_cases s c r a
    · exact hkept hadds (by rw [step, hout])
    · exact hkept hadds (by rw [step, hout]; rfl)
  | exec pid a k hops r envp =>
    by_cases hguard : ∃ p, s.find pid = some p ∧ p.finished = false
    · obtain ⟨p, hfind, hlive⟩ := hguard
      rcases execProcess_step hfind hlive c a k hops r envp with ⟨hsame, -⟩ | ⟨e, hout, -⟩
      · exact hquiet hsame
      · obtain ⟨_, _, hreached, hend⟩ := execProgram_cases hfind c a e
        obtain ⟨_, hadds⟩ := hreached.adds
        rcases hend with ⟨_, hend⟩ | ⟨_, _, _, hend⟩
        · exact hkept hadds (by rw [hout, hend])
        · exact hkept hadds (by rw [hout, hend]; rfl)
    · exact hquiet (if_neg (mt live_iff.mp hguard))
  | execed pid =>
    by_cases hguard : (s.find pid).any (!·.finished) = true
    · exact hkept (execed_adds s pid) (congrArg arenaIds (if_pos hguard))
    · exact hquiet (if_neg hguard)
  | exit pid status => exact absurd rfl (he pid status)
  | wait callerPid wantedPid =>
    rcases waitForChild_cases s callerPid wantedPid with heq | ⟨_, p, -, -, heq⟩
    · exact hquiet heq
    · exact hkept (Leaves.refl s).adds (by rw [step, heq]; rfl)

theorem step_frees_unnamed (e : ProcessEvent) {id : Nat}
    (hid : id ∈ s.arenaIds) (hgone : id ∉ (s.step c e).arenaIds) (q : Nat) :
    ¬ (s.step c e).LiveNames q (.own id) := by
  by_cases he : ∃ pid status, e = .exit pid status
  · obtain ⟨pid, status, rfl⟩ := he
    by_cases hguard : ∃ p, s.find pid = some p ∧ p.finished = false ∧ p.threadStarted = true
    · obtain ⟨p, hfind, hlive, hstarted⟩ := hguard
      have hout : s.step c (.exit pid status) = s.finishProcess pid status :=
        if_pos (ends_iff.mpr ⟨p, hfind, hlive, hstarted⟩)
      obtain ⟨hids, hnames, -⟩ := finishProcess_spec hfind status
      rw [hout] at hgone ⊢
      have hspent : s.Spent pid p id := by
        by_contra hnot
        exact hgone ((hids id).mpr ⟨hid, hnot⟩)
      rw [hnames]
      exact fun h => hspent.2 ⟨q, h⟩
    · have hidle : s.step c (.exit pid status) = s := if_neg (mt ends_iff.mp hguard)
      rw [hidle] at hgone
      exact absurd hid hgone
  · exact absurd (step_keeps_arenas s c (fun pid status h => he ⟨pid, status, h⟩) hid) hgone

def run (es : List ProcessEvent) : FathomSession :=
  es.foldl (fun s e => s.step c e) s

end

def LeakFree (s : FathomSession) (c : Settings) : List ProcessEvent → Prop
  | [] => True
  | e :: es => ¬ s.Leaks c e ∧ LeakFree (s.step c e) c es

theorem run_inUse {c : Settings} {es : List ProcessEvent} (hs : s.InUse)
    (hes : s.LeakFree c es) : (s.run c es).InUse := by
  induction es generalizing s with
  | nil => exact hs
  | cons e es ih =>
    have hstep := step_named hs c e
    exact ih ⟨hstep.named_iff.mpr hes.1, hstep.issued⟩ hes.2

/-! ## How many there are -/

def live (s : FathomSession) : Finset Nat :=
  (Finset.range s.table.nextPid).filter fun pid => (s.find pid).any (!·.finished) = true

theorem mem_live : pid ∈ s.live ↔ ∃ p, s.find pid = some p ∧ p.finished = false := by
  rw [live, Finset.mem_filter, live_iff, Finset.mem_range, and_iff_right_iff_imp]
  rintro ⟨p, hp, -⟩
  by_contra hle
  have hnone := s.table.fresh pid (Nat.le_of_not_lt hle)
  rw [find, hnone] at hp
  cases hp

def namedIds (s : FathomSession) (pid : Nat) : Finset Nat :=
  match s.find pid with
  | none => ∅
  | some p => (([p.space, p.borrowedSpace, p.previousSpace].filterMap fun ptr =>
    match ptr with
    | .own id => some id
    | _ => none) : List Nat).toFinset

theorem card_namedIds_le (s : FathomSession) (pid : Nat) : (s.namedIds pid).card ≤ 3 := by
  rw [namedIds]
  split
  · simp
  · exact (List.toFinset_card_le _).trans (List.length_filterMap_le _ _)

theorem mem_namedIds {id : Nat} (hfind : s.find pid = some p) (hnames : p.names (.own id) = true) :
    id ∈ s.namedIds pid := by
  simp only [namedIds, hfind, List.mem_toFinset, List.mem_filterMap]
  refine ⟨.own id, ?_, rfl⟩
  rcases (names_iff p).mp hnames with h | h | h
  · simp [h]
  · simp [h]
  · simp [h]

theorem Named.length_le (hs : s.Named) : s.arenas32.arenas.length ≤ 3 * s.live.card := by
  have hsub : s.arenaIds.toFinset ⊆ s.live.biUnion s.namedIds := by
    intro id hid
    obtain ⟨pid, p, hp, hlive, hnames⟩ := hs id (List.mem_toFinset.mp hid)
    exact Finset.mem_biUnion.mpr ⟨pid, mem_live.mpr ⟨p, hp, hlive⟩, mem_namedIds hp hnames⟩
  calc s.arenas32.arenas.length = s.arenaIds.toFinset.card := by
        rw [arenaIds, List.toFinset_card_of_nodup s.arenas32.once, List.length_map]
    _ ≤ (s.live.biUnion s.namedIds).card := Finset.card_le_card hsub
    _ ≤ s.live.card * 3 := Finset.card_biUnion_le_card_mul _ _ _ fun pid _ => s.card_namedIds_le pid
    _ = 3 * s.live.card := Nat.mul_comm _ _

/-- Down a run in which no event leaks every arena is named, and there are at
most three to a process; an event that leaks leaves one that is not. And no
event frees an arena that a process names. -/
theorem arenas_named_iff (c : Settings) :
    (∀ (s : FathomSession) (es : List ProcessEvent), s.InUse → s.LeakFree c es →
      (s.run c es).Named ∧ (s.run c es).arenas32.arenas.length ≤ 3 * (s.run c es).live.card) ∧
      (∀ (s : FathomSession) (e : ProcessEvent), s.InUse → ((s.step c e).Named ↔ ¬ s.Leaks c e)) ∧
      ∀ (s : FathomSession) (e : ProcessEvent) (id : Nat), id ∈ s.arenaIds →
        id ∉ (s.step c e).arenaIds → ∀ q, ¬ (s.step c e).LiveNames q (.own id) := by
  refine ⟨fun s es hs hes => ?_, fun s e hs => (step_named hs c e).named_iff,
    fun s e id hid hgone q => step_frees_unnamed s c e hid hgone q⟩
  have hend := run_inUse hs hes
  exact ⟨hend.named, hend.named.length_le⟩

def gigabyteAt (base : UInt64) (hpos : 0 < base.toNat) (hdvd : 0x4000 ∣ base.toNat)
    (hfits : base.toNat + 0x40000000 < 2 ^ 64) : Geometry :=
  { Geometry.oneMegabyte with
    base := base
    size := 0x40000000
    base_aligned := hdvd
    size_aligned := by decide
    base_pos := hpos
    size_pos := by decide
    fits := hfits }

def smallProgram : List Char :=
  [0x7f, 0x45, 0x4c, 0x46, 1, 1, 1, 0, 0, 0, 0, 0, 0, 0, 0, 0, 3, 0, 3, 0, 1, 0, 0, 0, 0, 0, 0, 0,
    52, 0, 0, 0, 0, 0, 0, 0, 0, 0, 0, 0, 52, 0, 32, 0, 1, 0, 0, 0, 0, 0, 0, 0, 1, 0, 0, 0, 0, 0, 0,
    0, 0, 0, 0, 0, 0, 0, 0, 0, 16, 0, 0, 0, 32, 0, 0, 0, 5, 0, 0, 0, 0, 16, 0, 0].map Char.ofNat

def runSmall (g : Geometry) : ProcessEvent :=
  .exec 2 { allGranted with reserved := some g } (oneFile smallProgram) 0 ⟨['/', 's'], []⟩ []

def forkExecExec : List ProcessEvent :=
  [.fork ⟨1, 1, 0, false⟩ { noThread with
        reserved := some (gigabyteAt 0x500000000 (by decide) (by decide) (by decide))
        hostThread := true },
    runSmall (gigabyteAt 0x600000000 (by decide) (by decide) (by decide)),
    .execed 2,
    runSmall (gigabyteAt 0x700000000 (by decide) (by decide) (by decide))]

theorem execs_leave_arena :
    let s := (startedSession (started false .session [])).run rootedSettings forkExecExec
    s.arenaIds = [0, 1, 2] ∧ s.live = {1, 2} ∧
      (s.find 1).map naming = some (false, .session, .null, .null) ∧
      (s.find 2).map naming = some (false, .own 2, .own 1, .null) ∧ ¬ s.Named := by
  have hids : ((startedSession (started false .session [])).run rootedSettings
      forkExecExec).arenaIds = [0, 1, 2] := by decide +kernel
  have hlive : ((startedSession (started false .session [])).run rootedSettings
      forkExecExec).live = {1, 2} := by decide +kernel
  have hparent : (((startedSession (started false .session [])).run rootedSettings
      forkExecExec).find 1).map naming = some (false, .session, .null, .null) := by
    decide +kernel
  have hchild : (((startedSession (started false .session [])).run rootedSettings
      forkExecExec).find 2).map naming = some (false, .own 2, .own 1, .null) := by
    decide +kernel
  refine ⟨hids, hlive, hparent, hchild, fun hnamed => ?_⟩
  obtain ⟨pid, p, hp, hfinished, hnames⟩ := hnamed 0 (by simp [hids])
  have hpid : pid = 1 ∨ pid = 2 := by simpa [hlive] using mem_live.mpr ⟨p, hp, hfinished⟩
  rw [← namedBy_naming] at hnames
  rcases hpid with rfl | rfl
  · rw [hp, Option.map_some, Option.some.injEq] at hparent
    simp [hparent, namedBy] at hnames
  · rw [hp, Option.map_some, Option.some.injEq] at hchild
    simp [hchild, namedBy] at hnames

theorem inUse_started : (startedSession (started false .session [])).InUse := by
  refine ⟨fun id hid => absurd hid List.not_mem_nil, fun pid p id hp hnames => ?_⟩
  by_cases hpid : pid = 1
  · subst hpid
    cases hp
    exact absurd hnames (by simp [names_iff, started])
  · have hnone : (startedSession (started false .session [])).find pid = none := if_neg hpid
    rw [hnone] at hp
    cases hp

theorem arenas_named_iff_fork :
    let s := startedSession (started false .session [])
    let e := ProcessEvent.fork ⟨1, 1, 0, false⟩ { noThread with hostThread := true }
    s.InUse ∧ s.LeakFree defaultSettings [e] ∧ (s.run defaultSettings [e]).arenaIds = [0] ∧
      (s.run defaultSettings [e]).Named := by
  intro s e
  have hfree : s.LeakFree defaultSettings [e] := ⟨fun h => h.2 ⟨rfl, rfl⟩, trivial⟩
  exact ⟨inUse_started, hfree, by decide +kernel,
    ((arenas_named_iff defaultSettings).1 s [e] inUse_started hfree).1⟩

end FathomSession

end Fathom
