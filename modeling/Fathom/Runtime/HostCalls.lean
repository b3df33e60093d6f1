import Fathom.Runtime.GuestPath
import Fathom.Runtime.Descriptors

/-!
# System calls that take a name

What the host does with a path, and what the runtime makes of it where a guest asks: a
unix socket's address, `newfstatat` and `statx`, and opening for reading. What
`ProcFileContents` writes is answered before the host is asked anything.
-/

namespace Fathom

open Lib.Namei

inductive HostError where
  | noent
  | notdir
  | loop
  | exist
  | io
  deriving DecidableEq

def HostError.ofWalk : Lib.Namei.Errno → HostError
  | .noent => noent
  | .notdir => notdir
  | .loop => loop

namespace HostFiles

variable (path : List Char) (k : HostFiles)

/-- What a call returns, and the files as it leaves them. -/
abbrev CallOut (α : Type) := Except HostError α × HostFiles

def create (entry : Entry) : CallOut Unit :=
  match k.namei true path with
  | .error code => (.error (.ofWalk code), k)
  | .at _ (some _) => (.error .exist, k)
  | .at place none => (.ok (), { k with tree := k.tree.add place entry })

def mkdir : CallOut Unit := k.create path .dir

def object (nofollow : Bool) (path : List Char) : Except HostError (Path × Entry) :=
  match k.namei nofollow path with
  | .error code => .error (.ofWalk code)
  | .at _ none => .error .noent
  | .at place (some entry) => .ok (place, entry)

end HostFiles

/-! ## Socket addresses (`guest_net.cpp`) -/

def kGuestAfUnix : Nat := 1
def kGuestAfInet : Nat := 2
def kGuestAfInet6 : Nat := 10

def nul : Char := Char.ofNat 0

def cText (bytes : List Char) : List Char := bytes.takeWhile (· ≠ nul)

def kSunPath : Nat := 104

abbrev SunPath := { bytes : List Char // bytes.length = kSunPath }

def SunPath.holding (bytes : List Char) : SunPath :=
  ⟨(bytes ++ List.replicate kSunPath nul).take kSunPath, by simp⟩

def SunPath.text (p : SunPath) : List Char := cText p.1

inductive HostAddress where
  | inet (port addr : List Char)
  | inet6 (port flowinfo addr scopeId : List Char)
  | unix (sunPath : SunPath)
  deriving DecidableEq

/-! ## ToHostAddress, ToGuestAddress -/

def toHostAddress (guest : List Char) : Option HostAddress :=
  match guest with
  | low :: high :: data =>
    let family := low.toNat + 256 * high.toNat
    if family = kGuestAfInet then
      if guest.length < 8 then none
      else some (.inet (data.take 2) ((data.drop 2).take 4))
    else if family = kGuestAfInet6 then
      if guest.length < 24 then none
      else
        let scopeId := if guest.length ≥ 28 then (data.drop 22).take 4 else List.replicate 4 nul
        some (.inet6 (data.take 2) ((data.drop 2).take 4) ((data.drop 6).take 16) scopeId)
    else if family = kGuestAfUnix then some (.unix (.holding (data.take (kSunPath - 1))))
    else none
  | _ => none

def familyBytes (family : Nat) : List Char := [Char.ofNat family, nul]

def guestAddress : HostAddress → List Char
  | .inet port addr => familyBytes kGuestAfInet ++ port ++ addr ++ List.replicate 8 nul
  | .inet6 port flowinfo addr scopeId =>
    familyBytes kGuestAfInet6 ++ port ++ flowinfo ++ addr ++ scopeId
  | .unix sunPath => familyBytes kGuestAfUnix ++ sunPath.text ++ [nul]

def toGuestAddress (host : HostAddress) (capacity : Nat) : List Char × Nat :=
  ((guestAddress host).take capacity, (guestAddress host).length)

/-! ## ToHostSocketAddress, ToGuestSocketAddress -/

def abstractDirectory : List Char := "/tmp/.fathom-abstract".toList

def fileChar (c : Char) : Char := if c = '/' then '%' else c

def socketPath (sunPath : SunPath) : List Char :=
  if sunPath.1.head? = some nul then abstractDirectory ++ '/' :: (cText sunPath.1.tail).map fileChar
  else sunPath.text

def PathContext.toHostSocketAddress (s : PathContext) (k : HostFiles) (guest : List Char) :
    Option HostAddress × HostFiles :=
  match toHostAddress guest with
  | some (.unix sunPath) =>
    let k := if sunPath.1.head? = some nul
      then (k.mkdir (s.resolveGuestPath k abstractDirectory true)).2 else k
    let hostPath := s.resolveGuestPath k (socketPath sunPath) true
    if hostPath.length ≥ kSunPath then (none, k)
    else (some (.unix (.holding hostPath)), k)
  | other => (other, k)

def withoutRoot (root path : List Char) : Option (List Char) :=
  if root ≠ [] ∧ root <+: path then
    let path := path.drop root.length
    some (if path.head? = some '/' then path else '/' :: path)
  else none

def shownAddress (root : List Char) : HostAddress → HostAddress
  | .unix sunPath =>
    match withoutRoot root sunPath.text with
    | some path => .unix (.holding (path.take (kSunPath - 1)))
    | none => .unix sunPath
  | other => other

/-! ## Describing a file (`linux_syscalls.cpp`) -/

def HostError.linux : HostError → Nat
  | .noent => 2
  | .notdir => 20
  | .loop => 40
  | .exist => 17
  | .io => 5

def kEfault : Nat := 14
def kEbadf : Nat := 9

structure FileStat where
  mode : UInt16
  nlink : Nat
  size : Nat
  ino : Nat
  blksize : Nat
  deriving DecidableEq

def kSIfdir : UInt16 := 0x4000
def kSIfchr : UInt16 := 0x2000
def kSIfreg : UInt16 := 0x8000

/-- What the host says of a place in its tree, and of an open file. -/
structure StatHost where
  files : HostFiles
  info : Path → FileStat
  ofDescriptor : HostDescriptor → Except HostError FileStat

namespace StatHost

def stat (k : StatHost) (nofollow : Bool) (path : List Char) : Except Nat FileStat :=
  match k.files.object nofollow path with
  | .error error => .error error.linux
  | .ok (place, _) => .ok (k.info place)

def fstat (k : StatHost) (fd : HostDescriptor) : Except Nat FileStat :=
  (k.ofDescriptor fd).mapError HostError.linux

end StatHost

structure StatProcess where
  guestRoot : List Char
  programPath : List Char
  pid : Int
  ppid : Int
  cwd : List Char
  files : LinuxSyscalls.Files
  is32bit : Bool
  threadName : List Char
  commandLine : List (List Char)

structure ProcAnswers where
  cpuinfo : List Char
  meminfo : List Char
  uptime : List Char
  /-- `DescribeProcess`: the parent and the name of a process there is. -/
  describeProcess : Nat → Option (Int × List Char)

namespace StatProcess

variable (p : StatProcess) (m : ProcAnswers)

def paths : PathContext where
  guestRoot := p.guestRoot
  programPath := p.programPath
  pid := p.pid
  cwd := p.cwd
  files := p.files.entries.map fun entry => (entry.1, entry.2.guestPath)

/-! ## ProcFileContents -/

def printed (text : List Char) : List Char := text.take 511

def decimal (n : Int) : List Char := (toString n).toList

def writeStat (pid ppid : Int) (name : List Char) : List Char :=
  printed (decimal pid ++ " (".toList ++ name ++ ") S ".toList ++ decimal ppid ++ " ".toList ++
    decimal pid ++ " ".toList ++ decimal pid ++
    (" 0 -1 4194304 0 0 0 0 0 0 0 0 20 0 1 0 0 0 0 " ++
      "18446744073709551615 0 0 0 0 0 0 0 0 0 0 0 0 0 0 0 0 0 0 0 0 0 0 0 0\n").toList)

def writeStatus (state : String) (pid ppid : Int) (name : List Char) : List Char :=
  printed ("Name:\t".toList ++ name ++ "\nState:\t".toList ++ state.toList ++
    "\nTgid:\t".toList ++ decimal pid ++ "\nPid:\t".toList ++ decimal pid ++
    "\nPPid:\t".toList ++ decimal ppid ++
    "\nTracerPid:\t0\nUid:\t0\t0\t0\t0\nGid:\t0\t0\t0\t0\nThreads:\t1\n".toList)

def systemFile (guestPath : List Char) : Option (List Char) :=
  if guestPath = "/proc/cpuinfo".toList then some m.cpuinfo
  else if guestPath = "/proc/meminfo".toList then some m.meminfo
  else if guestPath = "/proc/sys/kernel/unprivileged_userns_clone".toList ∨
      guestPath = "/proc/sys/user/max_user_namespaces".toList then some "0\n".toList
  else if guestPath = "/proc/sys/fs/inotify/max_user_watches".toList then some "524288\n".toList
  else if guestPath = "/proc/sys/fs/inotify/max_user_instances".toList ∨
      guestPath = "/proc/sys/fs/inotify/max_queued_events".toList then some "128\n".toList
  else if guestPath = "/proc/version".toList then
    some ("Linux version 6.6.0-fathom (fathom@fathom) (gcc version 12.2.0) #1 SMP Fathom\n").toList
  else if guestPath = "/proc/uptime".toList then some m.uptime
  else if guestPath = "/proc/filesystems".toList then
    some "nodev\tproc\nnodev\tsysfs\nnodev\ttmpfs\n\text4\n".toList
  else if guestPath = "/proc/mounts".toList ∨ guestPath = "/etc/mtab".toList then
    some ("/dev/root / ext4 rw,relatime 0 0\nproc /proc proc rw,relatime 0 0\n" ++
      "tmpfs /tmp tmpfs rw,relatime 0 0\n").toList
  else none

def ownFile (leaf : List Char) : Option (List Char) :=
  let name := if p.threadName = [] then "fathom".toList else p.threadName
  if leaf = "stat".toList then some (writeStat p.pid p.ppid name)
  else if "fdinfo/".toList <+: leaf then some "pos:\t0\nflags:\t02\nmnt_id:\t1\n".toList
  else if leaf = "cmdline".toList then
    some (p.commandLine.flatMap fun argument => argument ++ [Char.ofNat 0])
  else if leaf = "status".toList then some (writeStatus "R (running)" p.pid p.ppid name)
  else none

def otherFile (rest : List Char) : Option (List Char) :=
  let number := rest.takeWhile (· ≠ '/')
  let leaf := (rest.dropWhile (· ≠ '/')).tail
  if '/' ∉ rest then none
  else if number = [] ∨ ¬ number.all Char.isDigit then none
  else
    let other := number.foldl (fun n c => 10 * n + (c.toNat - '0'.toNat)) 0
    match m.describeProcess other with
    | none => none
    | some (ppid, name) =>
      if leaf = "stat".toList then some (writeStat other ppid name)
      else if leaf = "status".toList then some (writeStatus "S (sleeping)" other ppid name)
      else none

def procFileContents (guestPath : List Char) : Option (List Char) :=
  match systemFile m guestPath with
  | some contents => some contents
  | none =>
    let self := "/proc/self/".toList
    let own := "/proc/".toList ++ decimal p.pid ++ "/".toList
    if self <+: guestPath then p.ownFile (guestPath.drop self.length)
    else if own <+: guestPath then p.ownFile (guestPath.drop own.length)
    else if "/proc/".toList <+: guestPath then otherFile m (guestPath.drop 6)
    else none

def madeUp (guestPath : List Char) : Option FileStat :=
  if guestPath = "/proc/self/fd".toList ∨
      guestPath = "/proc/".toList ++ decimal p.pid ++ "/fd".toList then
    some ⟨kSIfdir ||| 0x140, 2, 512, 0, 0⟩
  else if "/proc/".toList <+: guestPath then
    (p.procFileContents m guestPath).map fun contents =>
      ⟨kSIfreg ||| 0x124, 1, contents.length, 0, 0⟩
  else none

/-! ## The descriptors -/

def hostFdFor (fd : Int) : Option HostDescriptor :=
  (p.files.get fd).bind LinuxSyscalls.OpenFile.host

def isConsole (fd : Int) : Bool := (p.files.get fd).any fun file => decide (file.consoleStream ≥ 0)

def consoleStat : FileStat := ⟨kSIfchr ||| 0x190, 1, 0, 0, 1024⟩

def doFstat (k : StatHost) (fd : Int) : Except Nat FileStat :=
  if p.isConsole fd then .ok consoleStat
  else
    match p.files.get fd with
    | none => .error kEbadf
    | some file =>
      match file.host with
      | none => .error kEbadf
      | some host => k.fstat host

end StatProcess

/-! ## newfstatat and statx -/

structure StatCall where
  dirfd : Int
  path : Option (List Char)
  emptyPath : Bool
  nofollow : Bool
  writable : Nat → Bool

namespace StatProcess

variable (p : StatProcess)

def statSize : Nat := if p.is32bit then 96 else 144

def lookupStat (m : ProcAnswers) (k : StatHost) (c : StatCall) (path : List Char) :
    Except Nat FileStat :=
  if path = [] ∧ c.emptyPath = true then
    if c.dirfd = kAtFdCwd then k.stat false (p.paths.resolveGuestPath k.files p.cwd true)
    else
      match p.hostFdFor c.dirfd with
      | none => p.doFstat k c.dirfd
      | some host => k.fstat host
  else
    let (hostPath, guestPath) := p.paths.resolveAt k.files c.dirfd path (!c.nofollow)
    match p.madeUp m guestPath with
    | some made => .ok made
    | none => k.stat c.nofollow hostPath

def doStatAt (m : ProcAnswers) (k : StatHost) (c : StatCall) : Except Nat FileStat :=
  if !c.writable p.statSize then .error kEfault
  else
    match c.path with
    | none => .error kEfault
    | some path => p.lookupStat m k c path

/-- `statx`, up to what is written. The path is followed whatever the flags say. -/
def lookupStatx (k : StatHost) (c : StatCall) (path : List Char) : Except Nat FileStat :=
  if path = [] ∧ c.emptyPath = true then
    match p.hostFdFor c.dirfd with
    | some host => k.fstat host
    | none => k.stat false (p.paths.resolveGuestPath k.files p.cwd true)
  else k.stat c.nofollow (p.paths.resolveAt k.files c.dirfd path true).1

/-- `statx`: the buffer, of 256 bytes, is looked at last. -/
def statx (k : StatHost) (c : StatCall) : Except Nat FileStat :=
  match c.path with
  | none => .error kEfault
  | some path =>
    match p.lookupStatx k c path with
    | .error error => .error error
    | .ok found => if c.writable 256 then .ok found else .error kEfault

end StatProcess

/-! ## openat -/

/-- What is opened for reading: something this layer makes, a file or directory of the
host's, or nothing. -/
inductive OpenResult where
  | made
  | file (place : Path)
  | nothing
  deriving DecidableEq

/-- `open` with `O_RDONLY`, and what `access` with `R_OK` says of a path. -/
def HostContents.opened (k : HostContents) (path : List Char) : OpenResult :=
  match k.files.namei false path with
  | .at place (some .file) => if (k.contents place).isSome then .file place else .nothing
  | .at place (some .dir) => .file place
  | _ => .nothing

/-- `DoOpenAt`. The display and what `ProcFileContents` writes are no files of the
host's. -/
def StatProcess.doOpenAt (p : StatProcess) (m : ProcAnswers) (k : HostContents) (dirfd : Int)
    (path : List Char) : OpenResult :=
  let (hostPath, guestPath) := p.paths.resolveAt k.files dirfd path true
  if guestPath = "/dev/fb0".toList ∨ guestPath = "/dev/graphics/fb0".toList then .made
  else if (p.procFileContents m guestPath).isSome = true then .made
  else if guestPath = "/proc/self/fd".toList ∨
      guestPath = "/proc/".toList ++ StatProcess.decimal p.pid ++ "/fd".toList then .made
  else k.opened hostPath

end Fathom
