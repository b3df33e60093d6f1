import Fathom.Runtime.Descriptors

/-!
# What the calls do to a table

There are ten things that a call can come to, and `call_does` says which: it has an
error and has done nothing, it has opened something at the lowest free number, it has
copied an entry, and so on. Everything about runs of calls is read off that.
-/

namespace Fathom

open Lib LinuxSyscalls FdCall

theorem Errno.ret_neg (e : Errno) : e.ret < 0 := by
  rw [Errno.ret]
  omega

def IsErrno (r : Int) : Prop := ∃ e : Errno, r = e.ret

theorem isErrno_neg (n : Nat) (hn : 1 ≤ n ∧ n ≤ 4095) : IsErrno (-(n : Int)) := ⟨⟨n, hn⟩, rfl⟩

theorem isErrno_iff {r : Int} : IsErrno r ↔ -4095 ≤ r ∧ r < 0 := by
  constructor
  · rintro ⟨⟨n, hn⟩, rfl⟩
    simp only [Errno.ret]
    omega
  · intro h
    exact ⟨⟨(-r).toNat, by omega⟩, by simp only [Errno.ret]; omega⟩

namespace Descriptors

variable {d : Descriptors} {c : FdCall} {fd k : Int}

/-! ## Closing -/

theorem files_closeFd (d : Descriptors) (fd k : Int) :
    (d.closeFd fd).files.get k = if k = fd then none else d.files.get k := by
  rw [closeFd]
  split
  next hnone =>
    split
    next heq => rw [heq, hnone]
    next => rfl
  next => exact Table.get_drop _ _ _

theorem files_foldl_closeFd (fds : List Int) (d : Descriptors) (k : Int) :
    (fds.foldl closeFd d).files.get k = if k ∈ fds then none else d.files.get k := by
  induction fds generalizing d with
  | nil => simp
  | cons fd rest ih =>
    rw [List.foldl_cons, ih, files_closeFd]
    by_cases hrest : k ∈ rest
    · simp [hrest]
    · simp [hrest]

theorem files_adoptImage (d : Descriptors) (k : Int) :
    d.adoptImage.files.get k = (d.files.get k).filter (!·.closeOnExec) := by
  simp only [adoptImage, files_foldl_closeFd, List.mem_insertionSort, List.mem_filter]
  cases hk : d.files.get k with
  | none => simp
  | some file =>
    have hmem : k ∈ d.files.keys := Table.mem_iff.mpr ⟨file, hk⟩
    cases hflag : file.closeOnExec with
    | false => simp [hflag, Option.filter]
    | true => simp [hmem, hflag, Option.filter]

/-! ## Opening -/

section

variable (host : Option HostDescriptor)

variable (d)

theorem allocateFd_nonneg : 0 ≤ d.allocateFd := Int.natCast_nonneg _

theorem allocateFd_free : d.files.get d.allocateFd = none := d.files.lowestFree_spec.1

theorem registerFile_eq (guestPath : List Char) (closeOnExec : Bool) :
    d.registerFile host guestPath closeOnExec = (d.allocateFd,
      { d with files := d.files.put d.allocateFd { host, guestPath, closeOnExec } }) := rfl

theorem refine_registerFile (guestPath : List Char) (closeOnExec : Bool) (f : OpenFile → OpenFile) :
    refine (d.registerFile host guestPath closeOnExec) f = (d.allocateFd,
      { d with files := d.files.put d.allocateFd (f { host, guestPath, closeOnExec }) }) := by
  rw [refine, registerFile_eq, Table.update_put]

end

theorem giving_error (e : Errno) (d : Descriptors) : giving (e.ret, d) = ⟨e.ret, [], d⟩ := by
  rw [giving, if_pos e.ret_neg]

theorem giving_opened (hfd : 0 ≤ fd) (d : Descriptors) : giving (fd, d) = ⟨fd, [fd], d⟩ := by
  rw [giving, if_neg (by omega)]

end Descriptors

def FdCall.opens : FdCall → Bool
  | .openAt _ _ _ | .openDisplay _ _ _ | .openSelfFd _ _ _ _ | .socket _ _ | .netlink _ _ _
  | .eventfd _ _ | .timerfdCreate _ _ | .epollCreate _ | .inotifyInit _ _
  | .memfdCreate _ _ _ => true
  | _ => false

def FdCall.records : FdCall → Bool
  | .openAt _ closeOnExec _ | .socket closeOnExec _ | .pipe closeOnExec _ _
  | .eventfd closeOnExec _ | .epollCreate closeOnExec | .inotifyInit closeOnExec _ => closeOnExec
  | _ => false

structure SharedObjects.Grown (old new : SharedObjects) (file : OpenFile) : Prop where
  le : old.nextSet ≤ new.nextSet
  sets : ∀ id, id < old.nextSet → new.sets id = old.sets id
  fresh : ∀ id, old.nextSet ≤ id → id < new.nextSet → new.sets id = .empty
  epoll : ∀ id, file.epoll = some id → old.nextSet ≤ id ∧ id < new.nextSet

theorem SharedObjects.Grown.same {o : SharedObjects} {file : OpenFile}
    (h : file.epoll = none) : o.Grown o file :=
  ⟨le_rfl, fun _ _ => rfl, fun id hle hlt => absurd hle (Nat.not_le.mpr hlt),
    fun id hid => by simp [h] at hid⟩

namespace Descriptors

variable {d : Descriptors} {c : FdCall} {fd k : Int}

def Opens (d : Descriptors) (c : FdCall) (out : FdOut) : Prop :=
  (∃ r, IsErrno r ∧ out = ⟨r, [], d⟩) ∨
  ∃ file objects, out = ⟨d.allocateFd, [d.allocateFd], ⟨d.files.put d.allocateFd file, objects⟩⟩ ∧
  file.closeOnExec = c.records ∧ d.objects.Grown objects file

theorem opens_error (e : Errno) : d.Opens c (giving (e.ret, d)) :=
  .inl ⟨e.ret, ⟨e, rfl⟩, giving_error e d⟩

theorem opens_put {file : OpenFile} {objects : SharedObjects}
    (hflag : file.closeOnExec = c.records) (hgrown : d.objects.Grown objects file) :
    d.Opens c (giving (d.allocateFd, ⟨d.files.put d.allocateFd file, objects⟩)) :=
  .inr ⟨file, objects, giving_opened d.allocateFd_nonneg _, hflag, hgrown⟩

theorem call_opens (h : c.opens = true) : d.Opens c (d.call c) := by
  cases c with
  | openAt _ _ host =>
    cases host with
    | error e => exact opens_error e
    | ok _ => exact opens_put rfl (.same rfl)
  | openDisplay _ _ ready =>
    cases ready with
    | false => exact opens_error ⟨12, by decide⟩
    | true => exact opens_put rfl (.same rfl)
  | openSelfFd _ _ _ host =>
    cases host with
    | error e => exact opens_error e
    | ok _ =>
      simp only [call, openSelfFd, refine_registerFile]
      exact opens_put rfl (.same rfl)
  | socket _ host =>
    cases host with
    | error e => exact opens_error e
    | ok _ => exact opens_put rfl (.same rfl)
  | netlink _ _ host =>
    simp only [call, doNetlink]
    split
    · exact opens_error ⟨93, by decide⟩
    · cases host with
      | error e => exact opens_error e
      | ok _ =>
        simp only [refine_registerFile]
        exact opens_put rfl (.same rfl)
  | eventfd _ host =>
    cases host with
    | error e => exact opens_error e
    | ok _ =>
      simp only [call, doEventfd, refine_registerFile]
      exact opens_put rfl ⟨le_rfl, fun _ _ => rfl,
        fun id hle hlt => absurd hle (Nat.not_le.mpr hlt), fun id hid => by cases hid⟩
  | timerfdCreate _ host =>
    cases host with
    | error e => exact opens_error e
    | ok _ =>
      simp only [call, doTimerfdCreate, refine_registerFile]
      exact opens_put rfl (.same rfl)
  | epollCreate _ =>
    simp only [call, doEpollCreate, refine_registerFile]
    refine opens_put rfl ⟨Nat.le_succ _, fun id hid => ?_, fun id hle hlt => ?_, fun id hid => ?_⟩
    · exact if_neg (Nat.ne_of_lt hid)
    · exact if_pos (Nat.le_antisymm (Nat.le_of_lt_succ hlt) hle)
    · cases hid
      exact ⟨le_rfl, Nat.lt_succ_self _⟩
  | inotifyInit _ host =>
    cases host with
    | error e => exact opens_error e
    | ok _ =>
      simp only [call, doInotifyInit, refine_registerFile]
      exact opens_put rfl (.same rfl)
  | memfdCreate _ _ host =>
    cases host with
    | error e => exact opens_error e
    | ok _ => exact opens_put rfl (.same rfl)
  | _ => cases h

theorem doPipe_cases (d : Descriptors) (closeOnExec place : Bool)
    (host : Except Errno (Nat × Nat)) :
    (∃ r, IsErrno r ∧ d.doPipe closeOnExec place host = (r, [], d)) ∨
      ∃ reading writing : OpenFile, reading.closeOnExec = closeOnExec ∧
        writing.closeOnExec = closeOnExec ∧ reading.epoll = none ∧ writing.epoll = none ∧
        d.doPipe closeOnExec place host =
          let files := d.files.put d.allocateFd reading
          (0, [d.allocateFd, (files.lowestFree : Int)],
            { d with files := files.put files.lowestFree writing }) := by
  cases host with
  | error e => exact .inl ⟨e.ret, ⟨e, rfl⟩, rfl⟩
  | ok _ =>
    cases place with
    | false => exact .inl ⟨-14, isErrno_neg 14 (by decide), rfl⟩
    | true => exact .inr ⟨_, _, rfl, rfl, rfl, rfl, rfl⟩

/-! ## Copying -/

end Descriptors

def LinuxSyscalls.OpenFile.copied (file : OpenFile) : OpenFile where
  guestPath := file.guestPath
  consoleStream := file.consoleStream
  isFramebuffer := file.isFramebuffer
  host := file.host.map HostDescriptor.dup

def FdCall.copies : FdCall → Option Int
  | .dup fd _ | .dup2 fd _ _ | .dup3 fd _ _ _ | .fcntlDupfd fd _ _ _ => some fd
  | _ => none

def FdCall.onto : FdCall → Option Int
  | .dup2 _ target _ | .dup3 _ target _ _ => some target
  | _ => none

def FdCall.dups : FdCall → Bool
  | .dup _ dups | .dup2 _ _ dups | .dup3 _ _ _ dups | .fcntlDupfd _ _ _ dups => dups
  | _ => false

def FdCall.edit (c : FdCall) (k : Int) : OpenFile → OpenFile :=
  match c with
  | .fcntlSetfd fd closeOnExec => fun file => if k = fd then { file with closeOnExec } else file
  | .ioctlCloexec fd closeOnExec (.ok _) => fun file =>
    if k = fd ∧ file.isFramebuffer = false then
      { file with host := file.host.map fun host => { host with closeOnExec } }
    else file
  | .shutdown fd how (.ok _) => fun file =>
    if k = fd ∧ how ≠ 0 ∧ file.host ≠ none then { file with shutdownWrite := true } else file
  | .getdents64 fd (.ok directory) => fun file =>
    if k = fd then { file with directory := some (file.directory.getD directory) } else file
  | .timerfdSettime fd intervalNs valueNs => fun file =>
    if k = fd ∧ file.isTimer = true then
      { file with timerIntervalNs := intervalNs, timerValueNs := valueNs }
    else file
  | _ => id

def FdCall.edits : FdCall → Option Int
  | .fcntlSetfd fd _ | .ioctlCloexec fd _ _ | .shutdown fd _ _ | .getdents64 fd _
  | .timerfdSettime fd _ _ => some fd
  | _ => none

theorem FdCall.edit_of_ne {c : FdCall} {k : Int} (h : c.edits ≠ some k) : c.edit k = id := by
  cases c with
  | fcntlSetfd fd _ => exact funext fun file => if_neg fun heq => h (congrArg some heq.symm)
  | ioctlCloexec fd _ host =>
    cases host with
    | error e => rfl
    | ok _ => exact funext fun file => if_neg fun hand => h (congrArg some hand.1.symm)
  | shutdown fd _ host =>
    cases host with
    | error e => rfl
    | ok _ => exact funext fun file => if_neg fun hand => h (congrArg some hand.1.symm)
  | getdents64 fd host =>
    cases host with
    | error e => rfl
    | ok _ => exact funext fun file => if_neg fun heq => h (congrArg some heq.symm)
  | timerfdSettime fd _ _ =>
    exact funext fun file => if_neg fun hand => h (congrArg some hand.1.symm)
  | _ => rfl

namespace Descriptors

variable (r : Int) {d : Descriptors} {c : FdCall} {fd k : Int}

theorem duplicateTo_cases (d : Descriptors) (file : OpenFile) (target : Int) (dups : Bool) :
    (file.host ≠ none ∧ dups = false ∧ d.duplicateTo file target dups = ⟨-1, [], d⟩) ∨
    ((file.host ≠ none → dups = true) ∧ d.duplicateTo file target dups =
      ⟨target, [target], { d with files := d.files.put target file.copied }⟩) := by
  simp only [duplicateTo, OpenFile.copied]
  cases hhost : file.host with
  | none => exact .inr ⟨fun h => absurd rfl h, rfl⟩
  | some _ =>
    cases dups with
    | false => exact .inl ⟨by simp, rfl, rfl⟩
    | true => exact .inr ⟨fun _ => rfl, rfl⟩

/-! ## Editing -/

def Edits (d : Descriptors) (c : FdCall) (out : Int × Descriptors) : Prop :=
  out.2.objects = d.objects ∧ ∀ k, out.2.files.get k = (d.files.get k).map (c.edit k)

theorem edits_nothing (hfd : c.edits = some fd)
    (h : ∀ file, d.files.get fd = some file → c.edit fd file = file) : d.Edits c (r, d) := by
  refine ⟨rfl, fun k => ?_⟩
  by_cases heq : k = fd
  · subst heq
    cases hk : d.files.get k with
    | none => rfl
    | some file => rw [Option.map_some, h file hk]
  · rw [edit_of_ne (by simpa [hfd] using Ne.symm heq), Option.map_id, id]

variable {file : OpenFile}

section

variable (hfd : c.edits = some fd)
include hfd

theorem edits_update {f : OpenFile → OpenFile} (hfile : d.files.get fd = some file)
    (hsame : f file = c.edit fd file) : d.Edits c (r, { d with files := d.files.update fd f }) := by
  refine ⟨rfl, fun k => ?_⟩
  rw [Table.get_update]
  split
  next heq => rw [heq, hfile, Option.map_some, Option.map_some, hsame]
  next hne => rw [edit_of_ne (by simpa [hfd] using Ne.symm hne), Option.map_id, id]

theorem edits_none (hnone : d.files.get fd = none) : d.Edits c (r, d) :=
  edits_nothing r hfd fun file hfile => by simp [hnone] at hfile

theorem edits_same (hfile : d.files.get fd = some file) (h : c.edit fd file = file) :
    d.Edits c (r, d) :=
  edits_nothing r hfd fun other hother => by
    rw [hfile] at hother
    cases hother
    exact h

end

section

variable (d)

theorem doFcntlSetfd_edits (fd : Int) (closeOnExec : Bool) :
    d.Edits (.fcntlSetfd fd closeOnExec) (d.doFcntlSetfd fd closeOnExec) := by
  rw [doFcntlSetfd]
  split
  next hnone => exact edits_none _ rfl hnone
  next hfile => exact edits_update _ rfl hfile (if_pos rfl).symm

theorem doIoctlCloexec_edits (fd : Int) (closeOnExec : Bool) (host : Except Errno Unit) :
    d.Edits (.ioctlCloexec fd closeOnExec host) (d.doIoctlCloexec fd closeOnExec host) := by
  rw [doIoctlCloexec]
  split
  next hnone => exact edits_none _ rfl hnone
  next file hfile =>
    cases host with
    | error e =>
      have hnothing : ∀ r, d.Edits (.ioctlCloexec fd closeOnExec (.error e)) (r, d) :=
        fun r => edits_same r rfl hfile rfl
      split
      next => exact hnothing _
      next =>
        split
        next => exact hnothing _
        next => exact hnothing _
    | ok _ =>
      split
      next hframe => exact edits_same _ rfl hfile (if_neg (by simp [hframe]))
      next hframe =>
        split
        next hhost =>
          have hsame : { file with host := file.host.map fun host =>
              { host with closeOnExec } } = file := by rw [hhost, Option.map_none, ← hhost]
          exact edits_same _ rfl hfile (by simp [edit, hsame])
        next descriptor hhost =>
          refine edits_update _ rfl hfile ?_
          simp [edit, hframe, hhost]

theorem doShutdown_edits (fd how : Int) (host : Except Errno Unit) :
    d.Edits (.shutdown fd how host) (d.doShutdown fd how host) := by
  simp only [doShutdown]
  split
  next hnone =>
    refine edits_nothing _ rfl fun file hfile => ?_
    have hhost : file.host = none := by simpa [hfile] using hnone
    cases host with
    | error e => rfl
    | ok _ => simp [edit, hhost]
  next descriptor hdescriptor =>
    obtain ⟨_, hfile, hhost⟩ := Option.bind_eq_some_iff.mp hdescriptor
    cases host with
    | error e => exact edits_same _ rfl hfile rfl
    | ok _ =>
      dsimp only
      split
      next hhow =>
        refine edits_update _ rfl hfile ?_
        simp [edit, hhow, hhost]
      next hhow => exact edits_same _ rfl hfile (if_neg fun hand => hhow hand.2.1)

theorem doGetdents64_edits (fd : Int) (host : Except Errno Nat) :
    d.Edits (.getdents64 fd host) (d.doGetdents64 fd host) := by
  simp only [doGetdents64]
  split
  next hnone => exact edits_none _ rfl hnone
  next file hfile =>
    split
    next already halready =>
      refine edits_same _ rfl hfile ?_
      cases host with
      | error e => rfl
      | ok directory =>
        have hsame : { file with directory := some (file.directory.getD directory) } = file := by
          rw [halready, Option.getD_some, ← halready]
        simp [edit, hsame]
    next hnone =>
      cases host with
      | error e => exact edits_same _ rfl hfile rfl
      | ok _ =>
        refine edits_update _ rfl hfile ?_
        simp [edit, hnone]

theorem doTimerfdSettime_edits (fd intervalNs valueNs : Int) :
    d.Edits (.timerfdSettime fd intervalNs valueNs) (d.doTimerfdSettime fd intervalNs valueNs) := by
  rw [doTimerfdSettime]
  split
  next hnone => exact edits_none _ rfl hnone
  next file hfile =>
    split
    next htimer => exact edits_same _ rfl hfile (if_neg (by simpa using htimer))
    next htimer =>
      refine edits_update _ rfl hfile ?_
      simp [edit, show file.isTimer = true by simpa using htimer]

theorem doEpollCtl_cases (epollFd operation fd : Int) (event : Option EpollInterest) :
    (∃ r, IsErrno r ∧ d.doEpollCtl epollFd operation fd event = (r, d)) ∨
    ∃ id set, (d.files.get epollFd).bind OpenFile.epoll = some id ∧
    (set = (d.objects.sets id).drop fd ∨ ∃ interest, set = (d.objects.sets id).put fd interest) ∧
    d.doEpollCtl epollFd operation fd event =
      (0, { d with objects := d.objects.withSet id set }) := by
  simp only [doEpollCtl]
  split
  next => exact .inl ⟨-9, isErrno_neg 9 (by decide), rfl⟩
  next id hid =>
    split
    next => exact .inl ⟨-9, isErrno_neg 9 (by decide), rfl⟩
    next =>
      split
      next =>
        split
        next => exact .inl ⟨-2, isErrno_neg 2 (by decide), rfl⟩
        next => exact .inr ⟨id, _, hid, .inl rfl, rfl⟩
      next =>
        split
        next => exact .inl ⟨-14, isErrno_neg 14 (by decide), rfl⟩
        next interest =>
          split
          next =>
            split
            next => exact .inl ⟨-17, isErrno_neg 17 (by decide), rfl⟩
            next => exact .inr ⟨id, _, hid, .inr ⟨interest, rfl⟩, rfl⟩
          next =>
            split
            next =>
              split
              next => exact .inl ⟨-2, isErrno_neg 2 (by decide), rfl⟩
              next => exact .inr ⟨id, _, hid, .inr ⟨interest, rfl⟩, rfl⟩
            next => exact .inl ⟨-22, isErrno_neg 22 (by decide), rfl⟩

end

/-! ## Calls -/

def closes (d : Descriptors) : FdCall → Option Int
  | .close fd => if (d.files.get fd).isSome then some fd else none
  | .dup2 fd target _ | .dup3 fd target _ _ =>
    if (d.files.get fd).isSome ∧ fd ≠ target then some target else none
  | _ => none

inductive Does (d : Descriptors) : FdCall → FdOut → Prop where
  | fails {c : FdCall} {r : Int} (hr : IsErrno r) (hedits : c.edits = none)
      (hcloses : d.closes c = none) : Does d c ⟨r, [], d⟩
  | opens {c : FdCall} {file : OpenFile} {objects : SharedObjects} (hc : c.opens = true)
      (hflag : file.closeOnExec = c.records) (hgrown : d.objects.Grown objects file) :
      Does d c ⟨d.allocateFd, [d.allocateFd], ⟨d.files.put d.allocateFd file, objects⟩⟩
  | pipes {closeOnExec place : Bool} {host : Except Errno (Nat × Nat)} {reading writing : OpenFile}
      {files : Files} {second : Int} (hreading : reading.closeOnExec = closeOnExec)
      (hwriting : writing.closeOnExec = closeOnExec) (hnone : reading.epoll = none)
      (hnone' : writing.epoll = none) (hfiles : files = d.files.put d.allocateFd reading)
      (hsecond : second = files.lowestFree) : Does d (.pipe closeOnExec place host)
        ⟨0, [d.allocateFd, second], { d with files := files.put second writing }⟩
  | copies {c : FdCall} {fd : Int} {file : OpenFile} (hc : c.copies = some fd)
      (honto : c.onto = none) (hfile : d.files.get fd = some file) :
      Does d c ⟨d.allocateFd, [d.allocateFd],
        { d with files := d.files.put d.allocateFd file.copied }⟩
  | stays {c : FdCall} {fd : Int} {file : OpenFile} (hc : c.copies = some fd)
      (honto : c.onto = some fd) (hfile : d.files.get fd = some file) : Does d c ⟨fd, [], d⟩
  | replaces {c : FdCall} {fd target : Int} {file : OpenFile} (hc : c.copies = some fd)
      (honto : c.onto = some target) (hfile : d.files.get fd = some file) (hne : fd ≠ target) :
      Does d c ⟨target, [target], { d.closeFd target with
        files := (d.closeFd target).files.put target file.copied }⟩
  | loses {c : FdCall} {fd target : Int} {file : OpenFile} (hc : c.copies = some fd)
      (honto : c.onto = some target) (hfile : d.files.get fd = some file) (hne : fd ≠ target)
      (hhost : file.host ≠ none) (hdups : c.dups = false) : Does d c ⟨-1, [], d.closeFd target⟩
  | closes {fd : Int} {file : OpenFile} (hfile : d.files.get fd = some file) :
      Does d (.close fd) ⟨0, [], d.closeFd fd⟩
  | edits {c : FdCall} {fd : Int} {out : Int × Descriptors} (hc : c.edits = some fd)
      (hedits : d.Edits c out) : Does d c (plainly out)
  | watches {epollFd operation fd : Int} {event : Option EpollInterest} {id : Nat}
      {set : EpollSet} (hid : (d.files.get epollFd).bind OpenFile.epoll = some id)
      (hset : set = (d.objects.sets id).drop fd ∨
        ∃ interest, set = (d.objects.sets id).put fd interest) :
      Does d (.epollCtl epollFd operation fd event)
        ⟨0, [], { d with objects := d.objects.withSet id set }⟩

section

variable (h : c.copies = some fd)
include h

theorem edits_of_copies : c.edits = none := by
  cases c with
  | dup | dup2 | dup3 | fcntlDupfd => rfl
  | _ => cases h

theorem opens_of_copies : c.opens = false := by
  cases c with
  | dup | dup2 | dup3 | fcntlDupfd => rfl
  | _ => cases h

theorem records_of_copies : c.records = false := by
  cases c with
  | dup | dup2 | dup3 | fcntlDupfd => rfl
  | _ => cases h

end

theorem closes_of_onto (h : c.onto = none) (hc : c.copies = some fd) : d.closes c = none := by
  cases c with
  | dup | fcntlDupfd => rfl
  | dup2 | dup3 => cases h
  | _ => cases hc

theorem closes_of_copies {target : Int} (hc : c.copies = some fd) (honto : c.onto = some target) :
    d.closes c = if (d.files.get fd).isSome ∧ fd ≠ target then some target else none := by
  cases c with
  | dup2 | dup3 =>
    cases hc
    cases honto
    rfl
  | _ => cases honto

theorem closes_of_opens (h : c.opens = true) : d.closes c = none := by
  cases c with
  | openAt | openDisplay | openSelfFd | socket | netlink | eventfd | timerfdCreate
  | epollCreate | inotifyInit | memfdCreate => rfl
  | _ => cases h

theorem edits_of_opens (h : c.opens = true) : c.edits = none := by
  cases c with
  | openAt | openDisplay | openSelfFd | socket | netlink | eventfd | timerfdCreate
  | epollCreate | inotifyInit | memfdCreate => rfl
  | _ => cases h

theorem closes_of_edits (h : c.edits = some fd) : d.closes c = none := by
  cases c with
  | fcntlSetfd | ioctlCloexec | shutdown | getdents64 | timerfdSettime => rfl
  | _ => cases h

theorem doDup_does {dups : Bool} (hc : c.copies = some fd) (honto : c.onto = none) :
    d.Does c (d.doDup fd dups) := by
  have hcloses : d.closes c = none := closes_of_onto honto hc
  rw [doDup]
  split
  next => exact .fails (isErrno_neg 9 (by decide)) (edits_of_copies hc) hcloses
  next file hfile =>
    obtain ⟨-, -, heq⟩ | ⟨-, heq⟩ := d.duplicateTo_cases file d.allocateFd dups
    · rw [heq]
      exact .fails (isErrno_neg 1 (by decide)) (edits_of_copies hc) hcloses
    · rw [heq]
      exact .copies hc honto hfile

theorem doDup2_does {target : Int} (hc : c.copies = some fd) (honto : c.onto = some target) :
    d.Does c (d.doDup2 fd target c.dups) := by
  rw [doDup2]
  split
  next hnone =>
    refine .fails (isErrno_neg 9 (by decide)) (edits_of_copies hc) ?_
    simp [closes_of_copies hc honto, hnone]
  next file hfile =>
    split
    next heq =>
      subst heq
      exact .stays hc honto hfile
    next hne =>
      obtain ⟨hhost, hdups, heq⟩ | ⟨-, heq⟩ :=
        (d.closeFd target).duplicateTo_cases file target c.dups
      · rw [heq]
        exact .loses hc honto hfile hne hhost hdups
      · rw [heq]
        exact .replaces hc honto hfile hne

theorem call_does (d : Descriptors) (c : FdCall) : d.Does c (d.call c) := by
  cases hopens : c.opens with
  | true =>
    obtain ⟨r, hr, heq⟩ | ⟨_, _, heq, hflag, hgrown⟩ := call_opens hopens
    · rw [heq]
      exact .fails hr (edits_of_opens hopens) (closes_of_opens hopens)
    · rw [heq]
      exact .opens hopens hflag hgrown
  | false =>
    cases c with
    | pipe closeOnExec place host =>
      rw [call]
      obtain ⟨r, hr, heq⟩ | ⟨_, _, hreading, hwriting, hnone, hnone', heq⟩ :=
        d.doPipe_cases closeOnExec place host
      · rw [heq]
        exact .fails hr rfl rfl
      · rw [heq]
        exact .pipes hreading hwriting hnone hnone' rfl rfl
    | dup fd _ => exact doDup_does rfl rfl
    | dup2 fd _ _ => exact doDup2_does rfl rfl
    | dup3 fd _ _ _ => exact doDup2_does rfl rfl
    | fcntlDupfd fd _ _ _ => exact doDup_does rfl rfl
    | close fd =>
      simp only [call, doClose]
      split
      next hnone => exact .fails (isErrno_neg 9 (by decide)) rfl (by simp [closes, hnone])
      next file hfile => exact .closes hfile
    | epollCtl epollFd operation fd event =>
      rw [call]
      obtain ⟨r, hr, heq⟩ | ⟨id, _, hid, hset, heq⟩ := d.doEpollCtl_cases epollFd operation fd event
      · rw [heq]
        exact .fails hr rfl rfl
      · rw [heq]
        exact .watches hid hset
    | fcntlSetfd fd closeOnExec => exact .edits rfl (d.doFcntlSetfd_edits fd closeOnExec)
    | ioctlCloexec fd closeOnExec host =>
      exact .edits rfl (d.doIoctlCloexec_edits fd closeOnExec host)
    | shutdown fd how host => exact .edits rfl (d.doShutdown_edits fd how host)
    | getdents64 fd host => exact .edits rfl (d.doGetdents64_edits fd host)
    | timerfdSettime fd intervalNs valueNs =>
      exact .edits rfl (d.doTimerfdSettime_edits fd intervalNs valueNs)
    | _ => cases hopens

theorem files_call (hk : k ∉ (d.call c).fds) : (d.call c).after.files.get k =
      if d.closes c = some k then none else (d.files.get k).map (c.edit k) := by
  have hid : c.edits = none → c.edit k = id := fun h => edit_of_ne (by simp [h])
  have hdoes := d.call_does c
  generalize d.call c = out at hk hdoes ⊢
  cases hdoes with
  | fails hr hedits hcloses => simp [hcloses, hid hedits]
  | opens hc _ _ =>
    rw [List.mem_singleton] at hk
    simp [closes_of_opens hc, hid (edits_of_opens hc), Table.get_put, hk]
  | pipes _ _ _ _ hfiles _ =>
    simp only [List.mem_cons, not_or] at hk
    simp [closes, edit, Table.get_put, hfiles, hk]
  | copies hc honto _ =>
    rw [List.mem_singleton] at hk
    simp [closes_of_onto honto hc, hid (edits_of_copies hc), Table.get_put, hk]
  | stays hc honto _ => simp [closes_of_copies hc honto, hid (edits_of_copies hc)]
  | replaces hc honto _ _ =>
    rw [List.mem_singleton] at hk
    simp [closes_of_copies hc honto, hid (edits_of_copies hc), Table.get_put, files_closeFd, hk,
      Ne.symm hk]
  | loses hc honto hfile hne _ _ =>
    simp [closes_of_copies hc honto, hfile, hid (edits_of_copies hc), files_closeFd, hne, eq_comm]
  | closes hfile => simp [closes, hfile, edit, files_closeFd, eq_comm]
  | edits hc hedits =>
    simp only [closes_of_edits hc, plainly, hedits.2 k]
    simp
  | watches _ _ => simp [closes, edit]

theorem fds_call (hk : k ∈ (d.call c).fds) : d.files.get k = none ∨ d.closes c = some k := by
  have hdoes := d.call_does c
  generalize d.call c = out at hk hdoes
  cases hdoes with
  | fails | stays | loses | closes | edits | watches => cases hk
  | opens | copies =>
    rw [List.mem_singleton.mp hk]
    exact .inl d.allocateFd_free
  | @pipes _ _ _ _ _ files second _ _ _ _ hfiles hsecond =>
    obtain heq | heq : k = d.allocateFd ∨ k = second := by simpa using hk
    · rw [heq]
      exact .inl d.allocateFd_free
    · -- free once the first is there, and so before it is
      have hfree := files.lowestFree_spec.1
      rw [← hsecond, ← heq, hfiles, Table.get_put] at hfree
      split at hfree
      · cases hfree
      · exact .inl hfree
  | replaces hc honto hfile hne =>
    rw [List.mem_singleton.mp hk, closes_of_copies hc honto]
    simp [hfile, hne]

theorem files_call_kept (hfile : d.files.get k = some file) (hcloses : d.closes c ≠ some k) :
    (d.call c).after.files.get k = some (c.edit k file) := by
  have hk : k ∉ (d.call c).fds := by
    intro hk
    obtain hnone | hclosed := fds_call hk
    · simp [hfile] at hnone
    · exact hcloses hclosed
  rw [files_call hk, if_neg hcloses, hfile, Option.map_some]

theorem flag_call (hk : k ∈ (d.call c).fds) :
    ((d.call c).after.files.get k).map OpenFile.closeOnExec = some c.records := by
  have hdoes := d.call_does c
  generalize d.call c = out at hk hdoes ⊢
  cases hdoes with
  | fails | stays | loses | closes | edits | watches => cases hk
  | opens hc hflag _ =>
    rw [List.mem_singleton.mp hk, Table.get_put, if_pos rfl, Option.map_some, hflag]
  | pipes hreading hwriting _ _ hfiles _ =>
    simp only [List.mem_cons, List.not_mem_nil, or_false] at hk
    rw [Table.get_put, hfiles, Table.get_put]
    split
    next => rw [Option.map_some, hwriting, records]
    next hne => rw [if_pos (hk.resolve_right hne), Option.map_some, hreading, records]
  | copies hc _ _ =>
    rw [List.mem_singleton.mp hk, Table.get_put, if_pos rfl, records_of_copies hc]
    rfl
  | replaces hc _ _ _ =>
    rw [List.mem_singleton.mp hk, Table.get_put, if_pos rfl, records_of_copies hc]
    rfl

end Descriptors

end Fathom
