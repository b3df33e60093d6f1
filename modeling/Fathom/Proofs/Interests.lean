import Fathom.Lib.Machine
import Fathom.Proofs.Descriptors

/-!
# Epoll sets that a parent and a child share

A forked child's epoll descriptor is the parent's set, and a set has its interests by
number. A number the child closes is taken out of it, though the parent's is still open.
-/

namespace Fathom

open Lib LinuxSyscalls

namespace Descriptors

variable {d : Descriptors} {c : FdCall} {fd k : Int} {id : Nat} {after : Option EpollInterest}

/-! ## What closing takes out of a set -/

def Holds (files : Files) (id : Nat) : Prop :=
  ∃ fd file, files.get fd = some file ∧ file.epoll = some id

def isBeside (fd : Int) (id : Nat) (entry : (_ : Int) × OpenFile) : Bool :=
  entry.1 ≠ fd ∧ entry.2.epoll = some id

def holdsBeside (files : Files) (fd : Int) (id : Nat) : Bool := files.entries.any (isBeside fd id)

theorem sets_forgetIn (o : SharedObjects) (entry : (_ : Int) × OpenFile) (id : Nat) (k : Int) :
    ((forgetIn fd o entry).sets id).get k =
      if k = fd ∧ isBeside fd id entry = true then none else (o.sets id).get k := by
  simp only [forgetIn, isBeside, decide_eq_true_eq]
  split
  next hnone => simp [hnone]
  next other hother =>
    split
    next hsame => simp [hsame]
    next hne =>
      simp only [SharedObjects.withSet, hother, Option.some.injEq]
      by_cases hid : id = other
      · subst hid
        rw [if_pos rfl, Table.get_drop]
        simp [hne]
      · rw [if_neg hid, if_neg fun hand => hid hand.2.2.symm]

theorem sets_foldl_forgetIn (entries : List ((_ : Int) × OpenFile)) (o : SharedObjects)
    (id : Nat) (k : Int) : ((entries.foldl (forgetIn fd) o).sets id).get k =
      if k = fd ∧ entries.any (isBeside fd id) = true then none else (o.sets id).get k := by
  induction entries generalizing o with
  | nil => simp
  | cons _ rest ih =>
    rw [List.foldl_cons, ih, sets_forgetIn, List.any_cons]
    by_cases hk : k = fd
    · cases rest.any (isBeside fd id) with
      | true => rw [if_pos ⟨hk, rfl⟩, if_pos ⟨hk, Bool.or_true _⟩]
      | false => rw [if_neg (by simp), Bool.or_false]
    · rw [if_neg fun h => hk h.1, if_neg fun h => hk h.1, if_neg fun h => hk h.1]

theorem nextSet_foldl_forgetIn (entries : List ((_ : Int) × OpenFile)) (o : SharedObjects) :
    (entries.foldl (forgetIn fd) o).nextSet = o.nextSet := by
  induction entries generalizing o with
  | nil => rfl
  | cons _ _ ih =>
    rw [List.foldl_cons, ih, forgetIn]
    split
    · rfl
    · split
      · rfl
      · rfl

theorem nextSet_closeFd (d : Descriptors) (fd : Int) :
    (d.closeFd fd).objects.nextSet = d.objects.nextSet := by
  rw [closeFd]
  split
  next => rfl
  next => exact nextSet_foldl_forgetIn _ _

theorem sets_closeFd (d : Descriptors) (fd : Int) (id : Nat) (k : Int) :
    ((d.closeFd fd).objects.sets id).get k =
      if (d.files.get fd).isSome = true ∧ k = fd ∧ holdsBeside d.files fd id = true then none
      else (d.objects.sets id).get k := by
  rw [closeFd]
  split
  next hnone => simp [hnone]
  next hsome =>
    rw [forgetInterest, sets_foldl_forgetIn]
    exact if_congr (by simp [hsome, holdsBeside]) rfl rfl

theorem sets_foldl_closeFd_none (fds : List Int) (h : (d.objects.sets id).get k = none) :
    ((fds.foldl closeFd d).objects.sets id).get k = none := by
  induction fds generalizing d with
  | nil => exact h
  | cons fd _ ih =>
    refine ih ?_
    rw [sets_closeFd, h, ite_self]

/-! ## What a call does to a set -/

def closings (d : Descriptors) : FdEvent → List Int
  | .call c => (d.closes c).toList
  | .exec => (d.files.keys.filter fun fd => (d.files.get fd).any OpenFile.closeOnExec).insertionSort
      (· ≤ ·)

def interestAfter (operation : Int) (event old : Option EpollInterest) : Option EpollInterest :=
  if operation = 2 then none
  else if operation = 1 then old.or event
  else if operation = 3 then old.map event.getD
  else old

theorem sets_withSet {o : SharedObjects} {set : EpollSet}
    (hset : ∀ k, set.get k = if k = fd then after else (o.sets id).get k) (other : Nat) (k : Int) :
    ((o.withSet id set).sets other).get k =
      if id = other ∧ k = fd then after else (o.sets other).get k := by
  simp only [SharedObjects.withSet]
  by_cases hid : other = id
  · subst hid
    rw [if_pos rfl, hset]
    exact if_congr (by simp) rfl rfl
  · rw [if_neg hid, if_neg fun h => hid h.1.symm]

theorem sets_same {o : SharedObjects} (hafter : after = (o.sets id).get fd) (other : Nat) (k : Int)
    : (o.sets other).get k = if id = other ∧ k = fd then after else (o.sets other).get k := by
  split
  next h => rw [hafter, h.1, h.2]
  next => rfl

theorem sets_doEpollCtl_of {epollFd operation : Int} (event : Option EpollInterest)
    (hid : (d.files.get epollFd).bind OpenFile.epoll = some id)
    (hpresent : (d.files.get fd).isSome = true) (other : Nat) (k : Int) :
    ((d.doEpollCtl epollFd operation fd event).2.objects.sets other).get k =
      if id = other ∧ k = fd then interestAfter operation event ((d.objects.sets id).get fd)
      else (d.objects.sets other).get k := by
  have hput : ∀ interest, ∀ k, ((d.objects.sets id).put fd interest).get k =
      if k = fd then some interest else (d.objects.sets id).get k :=
    fun interest k => Table.get_put _ _ _ _
  simp only [doEpollCtl, hid, Option.isNone_eq_false_iff.mpr hpresent, interestAfter]
  cases hold : (d.objects.sets id).get fd with
  | none =>
    by_cases hdelete : operation = 2
    · simpa [hdelete] using sets_same hold.symm other k
    · cases event with
      | none => simpa [hdelete] using sets_same hold.symm other k
      | some interest =>
        by_cases hadd : operation = 1
        · simpa [hadd] using sets_withSet (hput interest) other k
        · by_cases hmodify : operation = 3
          · simpa [hmodify] using sets_same hold.symm other k
          · simpa [hdelete, hadd, hmodify] using sets_same hold.symm other k
  | some _ =>
    by_cases hdelete : operation = 2
    · simpa [hdelete] using sets_withSet (Table.get_drop (d.objects.sets id) fd) other k
    · cases event with
      | none => simpa [hdelete] using sets_same hold.symm other k
      | some interest =>
        by_cases hadd : operation = 1
        · simpa [hadd] using sets_same hold.symm other k
        · by_cases hmodify : operation = 3
          · simpa [hmodify] using sets_withSet (hput interest) other k
          · simpa [hdelete, hadd, hmodify] using sets_same hold.symm other k

theorem sets_doEpollCtl (d : Descriptors) (epollFd operation fd : Int)
    (event : Option EpollInterest) (other : Nat) (k : Int) :
    ((d.doEpollCtl epollFd operation fd event).2.objects.sets other).get k =
      if (d.files.get fd).isSome = true ∧
        (d.files.get epollFd).bind OpenFile.epoll = some other ∧ k = fd
      then interestAfter operation event ((d.objects.sets other).get fd)
      else (d.objects.sets other).get k := by
  cases hid : (d.files.get epollFd).bind OpenFile.epoll with
  | none => simp [doEpollCtl, hid]
  | some id =>
    by_cases hpresent : (d.files.get fd).isSome = true
    · rw [sets_doEpollCtl_of event hid hpresent]
      by_cases heq : id = other
      · subst heq
        exact if_congr (by simp [hpresent]) rfl rfl
      · rw [if_neg fun h => heq h.1, if_neg fun h => heq (Option.some.inj h.2.1)]
    · simp [doEpollCtl, hid, Option.not_isSome_iff_eq_none.mp hpresent]

end Descriptors

def FdCall.controls : FdCall → Bool
  | .epollCtl _ _ _ _ => true
  | _ => false

namespace Descriptors

variable {d : Descriptors} {c : FdCall} {fd k : Int} {id : Nat}

theorem sets_call (hctl : c.controls = false) (hid : id < d.objects.nextSet) :
    (d.call c).after.objects.sets id =
      ((d.closings (.call c)).foldl closeFd d).objects.sets id := by
  rw [closings]
  have hdoes := d.call_does c
  generalize d.call c = out at hdoes ⊢
  cases hdoes with
  | fails hr _ hcloses =>
    rw [hcloses]
    rfl
  | opens hc _ hgrown =>
    rw [closes_of_opens hc]
    exact hgrown.sets id hid
  | pipes => rfl
  | copies hc honto _ =>
    rw [closes_of_onto honto hc]
    rfl
  | stays hc honto _ =>
    rw [closes_of_copies hc honto, if_neg (by simp)]
    rfl
  | replaces hc honto hfile hne =>
    rw [closes_of_copies hc honto, if_pos ⟨by simp [hfile], hne⟩]
    rfl
  | loses hc honto hfile hne =>
    rw [closes_of_copies hc honto, if_pos ⟨by simp [hfile], hne⟩]
    rfl
  | closes hfile =>
    rw [Descriptors.closes, if_pos (by simp [hfile])]
    rfl
  | edits hc hedits =>
    rw [closes_of_edits hc, plainly, hedits.1]
    rfl
  | watches => cases hctl

theorem step_exec (d : Descriptors) : d.step .exec = (d.closings .exec).foldl closeFd d := rfl

theorem nextSet_foldl_closeFd (fds : List Int) (d : Descriptors) :
    (fds.foldl closeFd d).objects.nextSet = d.objects.nextSet := by
  induction fds generalizing d with
  | nil => rfl
  | cons fd _ ih => rw [List.foldl_cons, ih, nextSet_closeFd]

theorem nextSet_call (d : Descriptors) (c : FdCall) :
    d.objects.nextSet ≤ (d.call c).after.objects.nextSet := by
  have hdoes := d.call_does c
  generalize d.call c = out at hdoes ⊢
  cases hdoes with
  | fails | pipes | copies | stays | watches => exact le_rfl
  | opens hc _ hgrown => exact hgrown.le
  | replaces | loses | closes => exact Nat.le_of_eq (nextSet_closeFd _ _).symm
  | edits hc hedits => exact Nat.le_of_eq (congrArg SharedObjects.nextSet hedits.1).symm

theorem nextSet_step (d : Descriptors) (e : FdEvent) :
    d.objects.nextSet ≤ (d.step e).objects.nextSet := by
  cases e with
  | call c => exact nextSet_call d c
  | exec => exact Nat.le_of_eq (nextSet_foldl_closeFd _ _).symm

theorem edit_epoll (c : FdCall) (fd : Int) (file : OpenFile) :
    (c.edit fd file).epoll = file.epoll := by
  cases c with
  | fcntlSetfd | timerfdSettime => simp [FdCall.edit, apply_ite OpenFile.epoll]
  | ioctlCloexec _ _ host | shutdown _ _ host | getdents64 _ host =>
    cases host with
    | error e => rfl
    | ok _ => simp [FdCall.edit, apply_ite OpenFile.epoll]
  | _ => rfl

theorem holds_put {files : Files} {file : OpenFile} (h : Holds (files.put fd file) id) :
    Holds files id ∨ file.epoll = some id := by
  obtain ⟨other, entry, hentry, hid⟩ := h
  rw [Table.get_put] at hentry
  split at hentry
  · cases hentry
    exact .inr hid
  · exact .inl ⟨other, entry, hentry, hid⟩

theorem holds_closeFd (h : Holds (d.closeFd fd).files id) : Holds d.files id := by
  obtain ⟨other, entry, hentry, hid⟩ := h
  rw [files_closeFd] at hentry
  split at hentry
  · cases hentry
  · exact ⟨other, entry, hentry, hid⟩

theorem holds_call (h : Holds (d.call c).after.files id) : Holds d.files id ∨
      (d.objects.nextSet ≤ id ∧ id < (d.call c).after.objects.nextSet) := by
  have hdoes := d.call_does c
  generalize d.call c = out at hdoes h ⊢
  cases hdoes with
  | fails | stays | watches => exact .inl h
  | opens hc _ hgrown => exact (holds_put h).imp_right (hgrown.epoll id)
  | pipes _ _ hnone hnone' hfiles _ =>
    obtain h | hid := holds_put h
    · rw [hfiles] at h
      obtain h | hid := holds_put h
      · exact .inl h
      · simp [hnone] at hid
    · simp [hnone'] at hid
  | copies =>
    obtain h | hid := holds_put h
    · exact .inl h
    · cases hid
  | replaces =>
    obtain h | hid := holds_put h
    · exact .inl (holds_closeFd h)
    · cases hid
  | loses | closes => exact .inl (holds_closeFd h)
  | edits hc hedits =>
    obtain ⟨other, _, hentry, hid⟩ := h
    rw [plainly, hedits.2, Option.map_eq_some_iff] at hentry
    obtain ⟨file, hfile, rfl⟩ := hentry
    exact .inl ⟨other, file, hfile, by rwa [edit_epoll] at hid⟩

theorem holds_foldl_closeFd (fds : List Int) (h : Holds (fds.foldl closeFd d).files id) :
    Holds d.files id := by
  induction fds generalizing d with
  | nil => exact h
  | cons fd _ ih => exact holds_closeFd (ih h)

theorem holds_step {e : FdEvent} (h : Holds (d.step e).files id) : Holds d.files id ∨
      (d.objects.nextSet ≤ id ∧ id < (d.step e).objects.nextSet) := by
  cases e with
  | call c => exact holds_call h
  | exec => exact .inl (holds_foldl_closeFd _ h)

/-! ## One table over two versions of the objects

What becomes of a set depends on the table, the event and what the set was. -/

section Versions

variable {d' : Descriptors}

section

variable (hfiles : d.files = d'.files)
include hfiles

theorem closes_congr : d.closes c = d'.closes c := by
  cases c with
  | dup2 | dup3 | close => simp only [closes, hfiles]
  | _ => rfl

theorem closings_congr (e : FdEvent) : d.closings e = d'.closings e := by
  cases e with
  | call c => simp only [closings, closes_congr hfiles]
  | exec => simp only [closings, hfiles]

theorem files_closeFd_congr (fd : Int) : (d.closeFd fd).files = (d'.closeFd fd).files := by
  simp only [closeFd, hfiles]
  split
  · exact hfiles
  · rfl

end

theorem sets_foldl_closeFd_congr (fds : List Int) (hfiles : d.files = d'.files)
    (h : ∀ k, (d.objects.sets id).get k = (d'.objects.sets id).get k) (k : Int) :
    ((fds.foldl closeFd d).objects.sets id).get k =
      ((fds.foldl closeFd d').objects.sets id).get k := by
  induction fds generalizing d d' with
  | nil => exact h k
  | cons fd _ ih =>
    refine ih (files_closeFd_congr hfiles fd) fun k => ?_
    rw [sets_closeFd, sets_closeFd, hfiles, h]

theorem sets_step_congr (d d' : Descriptors) {e : FdEvent} (hfiles : d.files = d'.files)
    (hnext : d.objects.nextSet = d'.objects.nextSet) (hid : id < d.objects.nextSet)
    (h : ∀ k, (d.objects.sets id).get k = (d'.objects.sets id).get k) (k : Int) :
    ((d.step e).objects.sets id).get k = ((d'.step e).objects.sets id).get k := by
  cases e with
  | exec =>
    rw [step_exec, closings_congr hfiles]
    exact sets_foldl_closeFd_congr _ hfiles h k
  | call c =>
    cases hctl : c.controls with
    | true =>
      cases c with
      | epollCtl _ _ fd _ => simp only [step, call, plainly, sets_doEpollCtl, hfiles, h]
      | _ => cases hctl
    | false =>
      simp only [step, sets_call hctl hid, sets_call hctl (hnext ▸ hid)]
      rw [closings_congr hfiles]
      exact sets_foldl_closeFd_congr _ hfiles h k

end Versions

/-! ## What a child's closing takes from its parent -/

def Takes (parent : Files) (d : Descriptors) (fd : Int) : Prop :=
  (d.files.get fd).isSome = true ∧ ∃ id, Holds parent id ∧ holdsBeside d.files fd id = true ∧
      ((d.objects.sets id).get fd).isSome = true

theorem sets_foldl_closeFd_iff (parent : Files) (reference : Nat → EpollSet) (fds : List Int)
    (h : ∀ id, Holds parent id → ∀ k, (d.objects.sets id).get k = (reference id).get k) :
    (∀ id, Holds parent id → ∀ k,
        ((fds.foldl closeFd d).objects.sets id).get k = (reference id).get k) ↔
      Along closeFd (fun d fd => ¬ Takes parent d fd) d fds := by
  induction fds generalizing d with
  | nil => exact iff_of_true h trivial
  | cons fd rest ih =>
    rw [Along]
    by_cases htakes : Takes parent d fd
    · refine iff_of_false (fun hafter => ?_) fun hand => hand.1 htakes
      -- what is out stays out
      obtain ⟨hpresent, id, hholds, hbeside, hinterest⟩ := htakes
      have hnone : ((d.closeFd fd).objects.sets id).get fd = none := by
        rw [sets_closeFd, if_pos ⟨hpresent, rfl, hbeside⟩]
      have hlost := hafter id hholds fd
      rw [List.foldl_cons, sets_foldl_closeFd_none rest hnone, ← h id hholds] at hlost
      simp [← hlost] at hinterest
    · rw [and_iff_right htakes]
      refine ih fun id hholds k => ?_
      rw [sets_closeFd, ← h id hholds]
      split
      next hand =>
        rw [hand.2.1]
        by_contra hsome
        exact htakes ⟨hand.1, id, hholds, hand.2.2, Option.isSome_iff_ne_none.mpr (Ne.symm hsome)⟩
      next => rfl

theorem holds_calls (cs : List FdCall) (h : ∀ id, Holds d.files id → id < d.objects.nextSet) :
    ∀ id, Holds (d.calls cs).files id → id < (d.calls cs).objects.nextSet := by
  induction cs generalizing d with
  | nil => exact h
  | cons c _ ih =>
    refine ih fun id hholds => ?_
    obtain hbefore | hnew := holds_call hholds
    · exact Nat.lt_of_lt_of_le (h id hbefore) (nextSet_call d c)
    · exact hnew.2

theorem not_holds_newFiles (id : Nat) : ¬ Holds newFiles id := by
  rintro ⟨fd, _, hfile, hid⟩
  simp only [newFiles, Table.get_put, Table.get_empty] at hfile
  split_ifs at hfile
  · cases hfile
    cases hid
  · cases hfile
    cases hid
  · cases hfile
    cases hid

end Descriptors

open Descriptors

/-! ## The run -/

/-- A parent and its child, and the sets as they should be. -/
structure Watching where
  tables : ForkedTables
  reference : Nat → EpollSet

namespace Watching

variable (s : Watching)

def start (d : Descriptors) (dups : Int → Bool) : Watching := ⟨.fork d dups, d.objects.sets⟩

def referenceObjects : SharedObjects := { s.tables.objects with sets := s.reference }

def referenceStep : ForkedEvent → Nat → EpollSet
  | .parent e => (Descriptors.step ⟨s.tables.parent, s.referenceObjects⟩ e).objects.sets
  | .child (.call c) =>
    if c.controls then
      (Descriptors.step ⟨s.tables.child, s.referenceObjects⟩ (.call c)).objects.sets
    else s.reference
  | .child .exec => s.reference

def step (e : ForkedEvent) : Watching where
  tables := s.tables.step e
  reference id := if id < s.tables.objects.nextSet then s.referenceStep e id
    else (s.tables.step e).objects.sets id

/-- The parent sees of its sets what the reference has in them. -/
def Undisturbed : Prop :=
  let reference : Descriptors := ⟨s.tables.parent, s.referenceObjects⟩
  ∀ epollFd fd, s.tables.ofParent.interest epollFd fd = reference.interest epollFd fd ∧
  s.tables.ofParent.watches epollFd fd = reference.watches epollFd fd

def Harmless (e : ForkedEvent) : Prop :=
  match e with
  | .parent _ => True
  | .child e => Along closeFd (fun d fd => ¬ Takes s.tables.parent d fd) s.tables.ofChild
      (s.tables.ofChild.closings e)

def Pointed : Prop :=
  ∀ id, Holds s.tables.parent id ∨ Holds s.tables.child id → id < s.tables.objects.nextSet

variable {s} {e : ForkedEvent}

theorem undisturbed_iff : s.Undisturbed ↔ ∀ id, Holds s.tables.parent id →
    ∀ k, (s.tables.objects.sets id).get k = (s.reference id).get k := by
  constructor
  · rintro h id ⟨fd, _, hfile, hid⟩ k
    have hinterest := (h fd k).1
    simpa [interest, ForkedTables.ofParent, referenceObjects, hfile, hid] using hinterest
  · intro h epollFd fd
    have hinterest : s.tables.ofParent.interest epollFd fd =
        Descriptors.interest ⟨s.tables.parent, s.referenceObjects⟩ epollFd fd := by
      simp only [interest, ForkedTables.ofParent]
      cases hid : (s.tables.parent.get epollFd).bind OpenFile.epoll with
      | none => rfl
      | some id =>
        obtain ⟨file, hfile, hepoll⟩ := Option.bind_eq_some_iff.mp hid
        exact h id ⟨epollFd, file, hfile, hepoll⟩ fd
    refine ⟨hinterest, ?_⟩
    simp only [watches, hinterest]
    rfl

theorem pointed_step (h : s.Pointed) : (s.step e).Pointed := by
  intro id hholds
  cases e with
  | parent e =>
    have hle : s.tables.objects.nextSet ≤ _ := nextSet_step s.tables.ofParent e
    obtain hholds | hholds := hholds
    · obtain hbefore | hnew := holds_step hholds
      · exact Nat.lt_of_lt_of_le (h id (.inl hbefore)) hle
      · exact hnew.2
    · exact Nat.lt_of_lt_of_le (h id (.inr hholds)) hle
  | child e =>
    have hle : s.tables.objects.nextSet ≤ _ := nextSet_step s.tables.ofChild e
    obtain hholds | hholds := hholds
    · exact Nat.lt_of_lt_of_le (h id (.inl hholds)) hle
    · obtain hbefore | hnew := holds_step hholds
      · exact Nat.lt_of_lt_of_le (h id (.inr hbefore)) hle
      · exact hnew.2

theorem undisturbed_step_parent {e : FdEvent} (hpointed : s.Pointed) (h : s.Undisturbed) :
    (s.step (.parent e)).Undisturbed := by
  rw [undisturbed_iff] at h ⊢
  intro id hholds k
  have hafter : Holds (s.tables.ofParent.step e).files id := hholds
  simp only [step]
  obtain hbefore | hnew := holds_step hafter
  · have hid := hpointed id (.inl hbefore)
    rw [if_pos hid]
    exact sets_step_congr s.tables.ofParent ⟨s.tables.parent, s.referenceObjects⟩ rfl rfl hid
      (h id hbefore) k
  · have hid : ¬ id < s.tables.objects.nextSet := Nat.not_lt.mpr hnew.1
    rw [if_neg hid]

theorem undisturbed_step_controls {c : FdCall} (hctl : c.controls = true) (hpointed : s.Pointed)
    (h : s.Undisturbed) : (s.step (.child (.call c))).Undisturbed := by
  rw [undisturbed_iff] at h ⊢
  intro id hholds k
  have hbefore : Holds s.tables.parent id := hholds
  have hid := hpointed id (.inl hbefore)
  simp only [step, referenceStep, if_pos hid, hctl]
  exact sets_step_congr s.tables.ofChild ⟨s.tables.child, s.referenceObjects⟩ rfl rfl hid
    (h id hbefore) k

theorem undisturbed_step_child_iff {e : FdEvent}
    (hreference : s.referenceStep (.child e) = s.reference)
    (hsets : ∀ id, id < s.tables.objects.nextSet → (s.tables.ofChild.step e).objects.sets id =
      ((s.tables.ofChild.closings e).foldl closeFd s.tables.ofChild).objects.sets id)
    (hpointed : s.Pointed) (h : s.Undisturbed) :
    (s.step (.child e)).Undisturbed ↔ s.Harmless (.child e) := by
  rw [undisturbed_iff] at h ⊢
  rw [Harmless]
  rw [← sets_foldl_closeFd_iff s.tables.parent s.reference _ h]
  refine forall_congr' fun id => forall_congr' fun hholds => forall_congr' fun k => ?_
  have hid := hpointed id (.inl hholds)
  simp only [step, if_pos hid, hreference]
  rw [← hsets id hid]
  rfl

theorem undisturbed_step_iff (hpointed : s.Pointed) (h : s.Undisturbed) :
    (s.step e).Undisturbed ↔ s.Harmless e := by
  cases e with
  | parent e => exact iff_of_true (undisturbed_step_parent hpointed h) trivial
  | child e =>
    cases e with
    | exec => exact undisturbed_step_child_iff rfl (fun _ _ => rfl) hpointed h
    | call c =>
      cases hctl : c.controls with
      | true =>
        refine iff_of_true (undisturbed_step_controls hctl hpointed h) ?_
        cases c with
        | epollCtl => trivial
        | _ => cases hctl
      | false =>
        refine undisturbed_step_child_iff ?_ (fun id hid => sets_call hctl hid) hpointed h
        rw [referenceStep, hctl]
        rfl

theorem epoll_cloneFiles {files : Files} {dups : Int → Bool} {fd : Int} {file : OpenFile}
    {id : Nat} (hfile : (cloneFiles files dups).get fd = some file) (hid : file.epoll = some id) :
    Holds files id := by
  rw [cloneFiles, Table.get_overlay, Option.or_eq_some_iff] at hfile
  obtain hcopy | ⟨-, hconsole⟩ := hfile
  · obtain ⟨original, horiginal, hinherited⟩ := Option.bind_eq_some_iff.mp hcopy
    refine ⟨fd, original, horiginal, ?_⟩
    rw [OpenFile.inherited] at hinherited
    split at hinherited
    · cases hinherited
      exact hid
    · split_ifs at hinherited
      cases hinherited
      exact hid
  · exact absurd ⟨fd, file, hconsole, hid⟩ (not_holds_newFiles id)

theorem pointed_start {d : Descriptors} (dups : Int → Bool)
    (h : ∀ id, Holds d.files id → id < d.objects.nextSet) : (start d dups).Pointed := by
  rintro id (hholds | ⟨fd, _, hfile, hid⟩)
  · exact h id hholds
  · exact h id (epoll_cloneFiles hfile hid)

end Watching

/-- Of every parent, every fork and every run of the two: what the parent's `epoll_wait`
watches is as the parent's own operations and the `epoll_ctl` calls of both have made it,
throughout the run, exactly if the child never closes a number that a set of the parent's
has an interest in while it has that set at another number. -/
theorem child_spares_watches_iff (d : Descriptors) (dups : Int → Bool)
    (events : List ForkedEvent) (h : ∀ id, Holds d.files id → id < d.objects.nextSet) :
    Throughout Watching.step Watching.Undisturbed (.start d dups) events ↔
    Along Watching.step Watching.Harmless (.start d dups) events := by
  have hstart : (Watching.start d dups).Undisturbed := Watching.undisturbed_iff.mpr fun _ _ _ => rfl
  rw [throughout_iff_along_within (fun _ _ hs _ => Watching.pointed_step hs)
    (fun _ _ hs _ => Watching.undisturbed_step_iff hs) (Watching.pointed_start dups h)
    (along_true _ _), and_iff_right hstart]

/-- A server with a socket that it watches, which an exec is to close. -/
def watchingServer : Descriptors := Descriptors.new.calls
  [.epollCreate false, .socket true (.ok 1), .epollCtl 3 1 4 (some ⟨1, 7⟩)]

theorem not_takes {parent : Files} {d : Descriptors} {fd : Int}
    (h : ∀ entry ∈ d.files.entries, entry.1 = fd ∨ entry.2.epoll = none) : ¬ Takes parent d fd := by
  rintro ⟨-, id, -, hbeside, -⟩
  obtain ⟨entry, hentry, hboth⟩ := List.any_eq_true.mp hbeside
  rcases h entry hentry with heq | hnone
  · simp [isBeside, heq] at hboth
  · simp [isBeside, hnone] at hboth

theorem child_spares_watches_iff_control :
    Throughout Watching.step Watching.Undisturbed (.start watchingServer fun _ => true)
      [.child (.call (.close 3)), .parent (.call (.epollCtl 3 2 4 none)), .child .exec] := by
  refine (child_spares_watches_iff watchingServer _ _ (holds_calls _ fun id hholds =>
    absurd hholds (not_holds_newFiles id))).mpr ⟨⟨?_, trivial⟩, trivial, ⟨?_, trivial⟩, trivial⟩
  · exact not_takes (by decide +kernel)
  · exact not_takes (by decide +kernel)

theorem child_takes_watches :
    let s := Watching.start watchingServer fun _ => true
    let closed := s.step (.child (.call (.close 4)))
    let replaced := s.step (.child .exec)
    s.tables.ofParent.watches 3 4 = some (⟨1, 7⟩, 1) ∧
      (¬ closed.Undisturbed ∧ (closed.tables.parent.get 4).isSome = true ∧
        closed.tables.ofParent.watches 3 4 = none) ∧
      (¬ replaced.Undisturbed ∧ (replaced.tables.parent.get 4).isSome = true ∧
        replaced.tables.ofParent.watches 3 4 = none) := by
  refine ⟨by decide +kernel, ⟨fun h => ?_, by decide +kernel⟩, fun h => ?_, by decide +kernel⟩
  · have hwatches := (h 3 4).2
    revert hwatches
    decide +kernel
  · have hwatches := (h 3 4).2
    revert hwatches
    decide +kernel

end Fathom
