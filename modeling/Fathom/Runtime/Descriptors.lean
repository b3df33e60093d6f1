import Fathom.Lib.Table
import Fathom.Runtime.Fork

/-!
# The descriptors of a process (`linux_syscalls.h`, `linux_syscalls.cpp`)

A guest's descriptors are numbers into a table of the process's own, `files`, and an
entry is a record of what the number stands for: a descriptor of the host's, the
console, an event counter, a set of descriptors to wait for.
-/

namespace Fathom

open Lib

/-- An error number of Linux's. -/
abbrev Errno := { n : Nat // 1 ≤ n ∧ n ≤ 4095 }

def Errno.ret (e : Errno) : Int := -(e.1 : Int)

structure HostDescriptor where
  description : Nat
  closeOnExec : Bool
  deriving DecidableEq

/-- `dup`: the same file, by a descriptor whose flag is clear. -/
def HostDescriptor.dup (h : HostDescriptor) : HostDescriptor := ⟨h.description, false⟩

namespace LinuxSyscalls

structure OpenFile where
  /-- `host_fd`, if it is not negative. -/
  host : Option HostDescriptor := none
  guestPath : List Char := []
  /-- The `DIR*` that `getdents64` reads from. -/
  directory : Option Nat := none
  isFramebuffer : Bool := false
  consoleStream : Int := -1
  event : Option Nat := none
  epoll : Option Nat := none
  isTimer : Bool := false
  isNetlink : Bool := false
  /-- `netlink_peer`, if it is not negative: the end of a pipe that is kept open. -/
  netlinkPeer : Option HostDescriptor := none
  netlinkProtocol : Int := -1
  scratchDirectory : List Char := []
  closeOnExec : Bool := false
  timerIntervalNs : Int := 0
  timerValueNs : Int := 0
  shutdownWrite : Bool := false
  deriving DecidableEq

abbrev Files := Table OpenFile

def newFiles : Files :=
  ((Table.empty.put 2 { consoleStream := 2, guestPath := "/dev/console".toList }).put 1
    { consoleStream := 1, guestPath := "/dev/console".toList }).put 0
      { consoleStream := 0, guestPath := "/dev/console".toList }

def OpenFile.inherited (file : OpenFile) (dups : Bool) : Option OpenFile :=
  let copy : OpenFile :=
    { guestPath := file.guestPath
      consoleStream := file.consoleStream
      isFramebuffer := file.isFramebuffer
      event := file.event
      epoll := file.epoll
      isTimer := file.isTimer
      closeOnExec := file.closeOnExec
      timerIntervalNs := file.timerIntervalNs
      timerValueNs := file.timerValueNs }
  match file.host with
  | none => some copy
  | some host => if dups then some { copy with host := some host.dup } else none

/-- `CloneInto`, the descriptors of it: over what a new table has. -/
def cloneFiles (files : Files) (dups : Int → Bool) : Files :=
  files.overlay (fun fd file => file.inherited (dups fd)) newFiles

end LinuxSyscalls

structure EpollInterest where
  events : UInt32
  data : UInt64
  deriving DecidableEq

/-- The interests of a set, by the descriptors' numbers. -/
abbrev EpollSet := Table EpollInterest

structure SharedObjects where
  sets : Nat → EpollSet
  nextSet : Nat
  nextEvent : Nat

def SharedObjects.withSet (o : SharedObjects) (id : Nat) (set : EpollSet) : SharedObjects :=
  { o with sets := fun other => if other = id then set else o.sets other }

/-- A process's table, and the objects it has in common with others. -/
structure Descriptors where
  files : LinuxSyscalls.Files
  objects : SharedObjects

/-- What a call returns, the numbers it has made entries for, and what it leaves. -/
structure FdOut where
  ret : Int
  fds : List Int
  after : Descriptors

namespace Descriptors

variable (d : Descriptors) (fd : Int) (guestPath : List Char) (closeOnExec : Bool)

open LinuxSyscalls

def allocateFd : Int := d.files.lowestFree

def registerFile (host : Option HostDescriptor) (guestPath : List Char) (closeOnExec : Bool) :
    Int × Descriptors :=
  let fd := d.allocateFd
  (fd, { d with files := d.files.put fd { host, guestPath, closeOnExec } })

def refine (out : Int × Descriptors) (f : OpenFile → OpenFile) : Int × Descriptors :=
  (out.1, { out.2 with files := out.2.files.update out.1 f })

def giving (out : Int × Descriptors) : FdOut := ⟨out.1, if out.1 < 0 then [] else [out.1], out.2⟩

def plainly (out : Int × Descriptors) : FdOut := ⟨out.1, [], out.2⟩

def duplicateTo (file : OpenFile) (target : Int) (dups : Bool) : FdOut :=
  let copy : OpenFile :=
    { guestPath := file.guestPath
      consoleStream := file.consoleStream
      isFramebuffer := file.isFramebuffer }
  match file.host with
  | none => ⟨target, [target], { d with files := d.files.put target copy }⟩
  | some host =>
    if dups then
      ⟨target, [target], { d with files := d.files.put target { copy with host := some host.dup } }⟩
    else ⟨-1, [], d⟩

/-- One round of the loop of `CloseFd`: the number out of the set of another entry. -/
def forgetIn (objects : SharedObjects) (entry : (_ : Int) × OpenFile) : SharedObjects :=
  match entry.2.epoll with
  | none => objects
  | some id => if entry.1 = fd then objects else objects.withSet id ((objects.sets id).drop fd)

def forgetInterest : SharedObjects := d.files.entries.foldl (forgetIn fd) d.objects

def closeFd : Descriptors :=
  match d.files.get fd with
  | none => d
  | some _ => ⟨d.files.drop fd, d.forgetInterest fd⟩

def adoptImage : Descriptors :=
  let closing := d.files.keys.filter fun fd => (d.files.get fd).any OpenFile.closeOnExec
  (closing.insertionSort (· ≤ ·)).foldl closeFd d

/-! ## The calls that make, copy and close entries -/

def openHost (closeOnExec : Bool) (host : Except Errno Nat) : Int × Descriptors :=
  match host with
  | .error e => (e.ret, d)
  | .ok description => d.registerFile (some ⟨description, false⟩) guestPath closeOnExec

/-- `openat`, of a file in the guest's root or one of `/proc` that is made up. -/
def doOpenAt (closeOnExec : Bool) (host : Except Errno Nat) :
    Int × Descriptors := d.openHost guestPath closeOnExec host

/-- `openat` of the display, which no host file is behind. What the flags say of
close-on-exec is not looked at. -/
def openDisplay (_closeOnExec ready : Bool) : Int × Descriptors :=
  if !ready then (-12, d)
  else
    let fd := d.allocateFd
    (fd, { d with files := d.files.put fd { guestPath, isFramebuffer := true } })

def openSelfFd (guestPath made : List Char) (_closeOnExec : Bool) (host : Except Errno Nat) :
    Int × Descriptors :=
  match host with
  | .error e => (e.ret, d)
  | .ok description => refine (d.registerFile (some ⟨description, false⟩) guestPath false)
      fun file => { file with scratchDirectory := made }

def doSocket (host : Except Errno Nat) : Int × Descriptors :=
  match host with
  | .error e => (e.ret, d)
  | .ok description => d.registerFile (some ⟨description, closeOnExec⟩) "socket".toList closeOnExec

def doNetlink (protocol : Int) (_closeOnExec : Bool) (host : Except Errno (Nat × Nat)) :
    Int × Descriptors :=
  if protocol ≠ 15 ∧ protocol ≠ 0 then (-93, d)
  else
    match host with
    | .error e => (e.ret, d)
    | .ok (reads, writes) => refine (d.registerFile (some ⟨reads, false⟩) "netlink".toList false)
        fun file => { file with
          isNetlink := true
          netlinkPeer := some ⟨writes, false⟩
          netlinkProtocol := protocol }

/-- `pipe` and `pipe2`, with the two numbers it stores. `place` is whether there is
memory to store them to. -/
def doPipe (closeOnExec place : Bool) (host : Except Errno (Nat × Nat)) :
    Int × List Int × Descriptors :=
  match host with
  | .error e => (e.ret, [], d)
  | .ok (reads, writes) =>
    if !place then (-14, [], d)
    else
      let first := d.registerFile (some ⟨reads, false⟩) "pipe:[read]".toList closeOnExec
      let second := first.2.registerFile (some ⟨writes, false⟩) "pipe:[write]".toList closeOnExec
      (0, [first.1, second.1], second.2)

def doEventfd (host : Except Errno Nat) : Int × Descriptors :=
  match host with
  | .error e => (e.ret, d)
  | .ok description =>
    let counter := d.objects.nextEvent
    let d := { d with objects := { d.objects with nextEvent := counter + 1 } }
    refine (d.registerFile (some ⟨description, false⟩) "anon_inode:[eventfd]".toList closeOnExec)
      fun file => { file with event := some counter }

/-- `timerfd_create`: the host's descriptor is told of close-on-exec, and the entry
is not. -/
def doTimerfdCreate (host : Except Errno Nat) : Int × Descriptors :=
  match host with
  | .error e => (e.ret, d)
  | .ok description => refine
      (d.registerFile (some ⟨description, closeOnExec⟩) "anon_inode:[timerfd]".toList false)
        fun file => { file with isTimer := true }

def doEpollCreate : Int × Descriptors :=
  let id := d.objects.nextSet
  let d := { d with objects := { d.objects.withSet id .empty with nextSet := id + 1 } }
  refine (d.registerFile none "anon_inode:[eventpoll]".toList closeOnExec)
    fun file => { file with epoll := some id }

def doInotifyInit (host : Except Errno (Nat × Nat)) : Int × Descriptors :=
  match host with
  | .error e => (e.ret, d)
  | .ok (reads, writes) => refine
      (d.registerFile (some ⟨reads, false⟩) "anon_inode:inotify".toList closeOnExec)
        fun file => { file with netlinkPeer := some ⟨writes, false⟩ }

def doMemfdCreate (name : List Char) (_closeOnExec : Bool) (host : Except Errno Nat) :
    Int × Descriptors :=
  d.openHost ("memfd:".toList ++ name) false host

def doDup (dups : Bool) : FdOut :=
  match d.files.get fd with
  | none => ⟨-9, [], d⟩
  | some file => d.duplicateTo file d.allocateFd dups

def doDup2 (fd target : Int) (dups : Bool) : FdOut :=
  match d.files.get fd with
  | none => ⟨-9, [], d⟩
  | some file =>
    if fd = target then ⟨target, [], d⟩
    else (d.closeFd target).duplicateTo file target dups

/-- `fcntl(fd, F_DUPFD)` and `F_DUPFD_CLOEXEC`. Neither the least number asked for
nor the flag is looked at. -/
def doFcntlDupfd (fd _least : Int) (_closeOnExec dups : Bool) : FdOut := d.doDup fd dups

def doFcntlSetfd (closeOnExec : Bool) : Int × Descriptors :=
  match d.files.get fd with
  | none => (-9, d)
  | some _ => (0, { d with files := d.files.update fd fun file => { file with closeOnExec } })

def doIoctlCloexec (closeOnExec : Bool) (host : Except Errno Unit) : Int × Descriptors :=
  match d.files.get fd with
  | none => (-9, d)
  | some file =>
    if file.isFramebuffer then (-25, d)
    else
      match file.host with
      | none => (if file.consoleStream ≥ 0 then 0 else -9, d)
      | some descriptor =>
        match host with
        | .error e => (e.ret, d)
        | .ok _ => (0, { d with files := d.files.update fd fun file =>
          { file with host := some { descriptor with closeOnExec } } })

def doClose : Int × Descriptors :=
  match d.files.get fd with
  | none => (-9, d)
  | some _ => (0, d.closeFd fd)

def doEpollCtl (epollFd operation fd : Int) (event : Option EpollInterest) : Int × Descriptors :=
  match (d.files.get epollFd).bind OpenFile.epoll with
  | none => (-9, d)
  | some id =>
    if (d.files.get fd).isNone then (-9, d)
    else
      let set := d.objects.sets id
      let changed := fun set : EpollSet => { d with objects := d.objects.withSet id set }
      if operation = 2 then if (set.get fd).isNone then (-2, d) else (0, changed (set.drop fd))
      else
        match event with
        | none => (-14, d)
        | some interest =>
          if operation = 1 then
            if (set.get fd).isSome then (-17, d) else (0, changed (set.put fd interest))
          else if operation = 3 then
            if (set.get fd).isNone then (-2, d) else (0, changed (set.put fd interest))
          else (-22, d)

def doShutdown (fd how : Int) (host : Except Errno Unit) : Int × Descriptors :=
  match (d.files.get fd).bind OpenFile.host with
  | none => (-9, d)
  | some _ =>
    match host with
    | .error e => (e.ret, d)
    | .ok _ =>
      if how ≠ 0 then
        (0, { d with files := d.files.update fd fun file => { file with shutdownWrite := true } })
      else (0, d)

def doGetdents64 (host : Except Errno Nat) : Int × Descriptors :=
  match d.files.get fd with
  | none => (-9, d)
  | some file =>
    match file.directory with
    | some _ => (0, d)
    | none =>
      match host with
      | .error e => (e.ret, d)
      | .ok directory => (0, { d with files := d.files.update fd fun file =>
        { file with directory := some directory } })

def doTimerfdSettime (fd intervalNs valueNs : Int) : Int × Descriptors :=
  match d.files.get fd with
  | none => (-9, d)
  | some file =>
    if !file.isTimer then (-9, d)
    else (0, { d with files := d.files.update fd fun file =>
      { file with timerIntervalNs := intervalNs, timerValueNs := valueNs } })

end Descriptors

/-! ## What a call goes by -/

/-- Where a call on a descriptor goes: to nothing, to what the entry has a pointer
to, to the console, or to the host with an open file of its own. -/
inductive FdBranch where
  | badFd
  | ignored
  | event (counter : Nat)
  | timer (description : Option Nat)
  | timerSettings (description : Option Nat) (intervalNs valueNs : Int)
  | console (stream : Int)
  | consoleInput
  | consoleOutput
  | invalid
  | host (description : Option Nat)
  | polled (description : Nat) (writeShutdown : Bool)
  | epoll (set : Nat)
  | nothingYet
  | route (peer : Option Nat)
  | directory (directory : Nat)
  | opensDirectory (description : Option Nat)
  deriving DecidableEq

namespace LinuxSyscalls

def OpenFile.description (file : OpenFile) : Option Nat := file.host.map HostDescriptor.description

def readBranch : Option OpenFile → FdBranch
  | none => .badFd
  | some file =>
    match file.event with
    | some counter => .event counter
    | none =>
      if file.isTimer then .timer file.description
      else if file.consoleStream ≥ 0 then .consoleInput
      else .host file.description

def writeBranch : Option OpenFile → FdBranch
  | none => .badFd
  | some file =>
    match file.event with
    | some counter => .event counter
    | none =>
      if file.consoleStream ≥ 0 then .console file.consoleStream
      else .host file.description

def pollBranch (fd : Int) (file : Option OpenFile) : FdBranch :=
  if fd < 0 then .ignored
  else if fd = 0 then .consoleInput
  else if fd = 1 ∨ fd = 2 then .consoleOutput
  else
    match file with
    | none => .invalid
    | some file =>
      match file.host with
      | none => .invalid
      | some host => .polled host.description file.shutdownWrite

def epollBranch (file : Option OpenFile) : FdBranch :=
  match file.bind OpenFile.epoll with
  | none => .badFd
  | some set => .epoll set

def timerBranch : Option OpenFile → FdBranch
  | none => .badFd
  | some file =>
    if file.isTimer then .timerSettings file.description file.timerIntervalNs file.timerValueNs
    else .badFd

def messageBranch : Option OpenFile → FdBranch
  | none => .badFd
  | some file =>
    if file.isNetlink then
      if file.netlinkProtocol ≠ 0 then .nothingYet
      else .route (file.netlinkPeer.map HostDescriptor.description)
    else .host file.description

def directoryBranch : Option OpenFile → FdBranch
  | none => .badFd
  | some file =>
    match file.directory with
    | some directory => .directory directory
    | none => .opensDirectory file.description

end LinuxSyscalls

/-! ## Runs -/

inductive FdCall where
  | openAt (guestPath : List Char) (closeOnExec : Bool) (host : Except Errno Nat)
  | openDisplay (guestPath : List Char) (closeOnExec ready : Bool)
  | openSelfFd (guestPath made : List Char) (closeOnExec : Bool) (host : Except Errno Nat)
  | socket (closeOnExec : Bool) (host : Except Errno Nat)
  | netlink (protocol : Int) (closeOnExec : Bool) (host : Except Errno (Nat × Nat))
  | pipe (closeOnExec place : Bool) (host : Except Errno (Nat × Nat))
  | eventfd (closeOnExec : Bool) (host : Except Errno Nat)
  | timerfdCreate (closeOnExec : Bool) (host : Except Errno Nat)
  | epollCreate (closeOnExec : Bool)
  | inotifyInit (closeOnExec : Bool) (host : Except Errno (Nat × Nat))
  | memfdCreate (name : List Char) (closeOnExec : Bool) (host : Except Errno Nat)
  | dup (fd : Int) (dups : Bool)
  | dup2 (fd target : Int) (dups : Bool)
  | dup3 (fd target : Int) (closeOnExec dups : Bool)
  | fcntlDupfd (fd least : Int) (closeOnExec dups : Bool)
  | fcntlSetfd (fd : Int) (closeOnExec : Bool)
  | ioctlCloexec (fd : Int) (closeOnExec : Bool) (host : Except Errno Unit)
  | close (fd : Int)
  | epollCtl (epollFd operation fd : Int) (event : Option EpollInterest)
  | shutdown (fd how : Int) (host : Except Errno Unit)
  | getdents64 (fd : Int) (host : Except Errno Nat)
  | timerfdSettime (fd intervalNs valueNs : Int)

inductive FdEvent where
  | call (c : FdCall)
  | exec

namespace Descriptors

variable (d : Descriptors)

open LinuxSyscalls

def call : FdCall → FdOut
  | .openAt guestPath closeOnExec host => giving (d.doOpenAt guestPath closeOnExec host)
  | .openDisplay guestPath closeOnExec ready => giving (d.openDisplay guestPath closeOnExec ready)
  | .openSelfFd guestPath made closeOnExec host =>
    giving (d.openSelfFd guestPath made closeOnExec host)
  | .socket closeOnExec host => giving (d.doSocket closeOnExec host)
  | .netlink protocol closeOnExec host => giving (d.doNetlink protocol closeOnExec host)
  | .pipe closeOnExec place host =>
    let out := d.doPipe closeOnExec place host
    ⟨out.1, out.2.1, out.2.2⟩
  | .eventfd closeOnExec host => giving (d.doEventfd closeOnExec host)
  | .timerfdCreate closeOnExec host => giving (d.doTimerfdCreate closeOnExec host)
  | .epollCreate closeOnExec => giving (d.doEpollCreate closeOnExec)
  | .inotifyInit closeOnExec host => giving (d.doInotifyInit closeOnExec host)
  | .memfdCreate name closeOnExec host => giving (d.doMemfdCreate name closeOnExec host)
  | .dup fd dups => d.doDup fd dups
  | .dup2 fd target dups => d.doDup2 fd target dups
  | .dup3 fd target _ dups => d.doDup2 fd target dups
  | .fcntlDupfd fd least closeOnExec dups => d.doFcntlDupfd fd least closeOnExec dups
  | .fcntlSetfd fd closeOnExec => plainly (d.doFcntlSetfd fd closeOnExec)
  | .ioctlCloexec fd closeOnExec host => plainly (d.doIoctlCloexec fd closeOnExec host)
  | .close fd => plainly (d.doClose fd)
  | .epollCtl epollFd operation fd event => plainly (d.doEpollCtl epollFd operation fd event)
  | .shutdown fd how host => plainly (d.doShutdown fd how host)
  | .getdents64 fd host => plainly (d.doGetdents64 fd host)
  | .timerfdSettime fd intervalNs valueNs => plainly (d.doTimerfdSettime fd intervalNs valueNs)

def new : Descriptors := ⟨newFiles, fun _ => .empty, 0, 0⟩

def calls (cs : List FdCall) : Descriptors := cs.foldl (fun d c => (d.call c).after) d

def step : FdEvent → Descriptors
  | .call c => (d.call c).after
  | .exec => d.adoptImage

def interest (epollFd fd : Int) : Option EpollInterest :=
  ((d.files.get epollFd).bind OpenFile.epoll).bind fun id => (d.objects.sets id).get fd

def watches (epollFd fd : Int) : Option (EpollInterest × Nat) :=
  (d.interest epollFd fd).bind fun interest =>
    ((d.files.get fd).bind OpenFile.description).map fun description => (interest, description)

end Descriptors

/-! ## After a fork -/

structure ForkedTables where
  parent : LinuxSyscalls.Files
  child : LinuxSyscalls.Files
  objects : SharedObjects

inductive ForkedEvent where
  | parent (e : FdEvent)
  | child (e : FdEvent)

namespace ForkedTables

def fork (d : Descriptors) (dups : Int → Bool) : ForkedTables :=
  ⟨d.files, LinuxSyscalls.cloneFiles d.files dups, d.objects⟩

def ofParent (s : ForkedTables) : Descriptors := ⟨s.parent, s.objects⟩

def ofChild (s : ForkedTables) : Descriptors := ⟨s.child, s.objects⟩

def step (s : ForkedTables) : ForkedEvent → ForkedTables
  | .parent e =>
    let d := s.ofParent.step e
    { s with parent := d.files, objects := d.objects }
  | .child e =>
    let d := s.ofChild.step e
    { s with child := d.files, objects := d.objects }

end ForkedTables

end Fathom
