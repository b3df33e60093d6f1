import Fathom.Runtime.GuestMemory

/-!
# Copying an address space (`fathom_runtime.cpp`)

A fork gives the child an arena of its own and fills it with `CopyAddressSpace`: every
committed range of the parent, rounded out to host pages, at the same offset. A range
that was never writable is only reserved again; any other is remapped.
-/

namespace Fathom

open Lib Spanned

/-- One call of the `remap` lambda. `copy` asks the host for a copy rather than
another view of the same pages. -/
structure Piece where
  begin : UInt64
  stop : UInt64
  protection : Prot
  copy : Bool
  written : Bool
  deriving DecidableEq

/-- The pieces of one range from `cursor` on: what lies in no shared view, and
what does. -/
def piecesFrom (finish : UInt64) (protection : Prot) (written : Bool) :
    UInt64 → List (UInt64 × UInt64) → List Piece
  | cursor, [] => [⟨cursor, finish, protection, true, written⟩]
  | cursor, (sharedBegin, sharedEnd) :: rest =>
    if sharedEnd ≤ cursor ∨ sharedBegin ≥ finish
    then piecesFrom finish protection written cursor rest
    else
      ⟨cursor, wordMin sharedBegin finish, protection, true, written⟩ ::
      ⟨wordMax cursor sharedBegin, wordMin sharedEnd finish, protection, false, true⟩ ::
      piecesFrom finish protection written (wordMax cursor sharedEnd) rest

def sortShared (shared : List (UInt64 × UInt64)) : List (UInt64 × UInt64) :=
  shared.insertionSort fun a b => a.1 < b.1 ∨ (a.1 = b.1 ∧ a.2 ≤ b.2)

def remappedProtection (protection : Prot) : HostProt :=
  ⟨protection.has kGuestProtRead || protection.has kGuestProtWrite, protection.has kGuestProtWrite⟩

def reservedProtection (protection : Prot) : HostProt :=
  if protection.has kGuestProtRead then protRead else protNone

/-- The `remap` lambda. Whether the child could take the span is not looked
at, and neither is the answer of `mprotect`. -/
def remap (page delta : UInt64) (piece : Piece) (child : GuestAddressSpace) (h : Host) :
    GuestAddressSpace × Host :=
  let begin := maskDown page piece.begin
  let stop := maskUp page piece.stop
  if stop ≤ begin then (child, h)
  else
    let target := begin + delta
    if !piece.written then
      let h := (h.mprotect target (stop - begin) (reservedProtection piece.protection)).2
      ((child.adoptCopiedMapping target (stop - begin) piece.protection false).2, h)
    else
      let (ok, h) := h.vmRemap target (stop - begin) begin
      if ok then
        let h := (h.mprotect target (stop - begin)
          (remappedProtection piece.protection)).2
        ((child.adoptCopiedMapping target (stop - begin) piece.protection true).2, h)
      else (child, h)

def forkPieces (parent : GuestAddressSpace) (shared : List (UInt64 × UInt64)) : List Piece :=
  parent.committed.flatMap fun range =>
    piecesFrom (Spanned.stop range) range.protection range.written range.begin (sortShared shared)

def remapAll (page delta : UInt64) :
    List Piece → GuestAddressSpace → Host → GuestAddressSpace × Host
  | [], child, h => (child, h)
  | piece :: rest, child, h =>
    let out := remap page delta piece child h
    remapAll page delta rest out.1 out.2

/-- `CopyAddressSpace`. `shared` is what `SharedRangesIn` answers for the
parent's arena. -/
def copyAddressSpace (parent child : GuestAddressSpace) (shared : List (UInt64 × UInt64))
    (h : Host) : GuestAddressSpace × Host :=
  remapAll parent.pageSize (child.base - parent.base) (forkPieces parent shared) child h

/-! ## A space for the child -/

def kRelocated64Floor : UInt64 := 8 * 1024 * 1024 * 1024

/-- `NewArena`, for the span `g` the host reserved. Its base is also where the
guest's numbering starts. -/
def newArena (is32bit : Bool) (g : Geometry) : GuestAddressSpace :=
  { GuestAddressSpace.new g with
    releaseObserver := true
    guestBase := g.base
    floor := if is32bit then 0 else g.base + kRelocated64Floor }

/-- The memory side of a fork: `Reserve` maps the span, nothing of it
accessible, and the parent is copied into it. -/
def forkInto (parent : GuestAddressSpace) (is32bit : Bool) (g : Geometry)
    (shared : List (UInt64 × UInt64)) (h : Host) : GuestAddressSpace × Host :=
  copyAddressSpace parent (newArena is32bit g) shared (h.mapFreshAnonymous g.base g.size).2

/-! ## Processes and their numbering -/

structure ImageRegion where
  begin : UInt64
  size : UInt64
  isCLibrary : Bool
  deriving DecidableEq

/-- The addresses a process's system call layer keeps. The heap's are the
guest's numbers, the two lists' are the host's. -/
structure LinuxSyscalls where
  guestIs32bit : Bool
  guestBase : UInt64
  heapBase : UInt64
  heapLimit : UInt64
  heapBreak : UInt64
  mappings : List (UInt64 × UInt64)
  imageData : List ImageRegion
  deriving DecidableEq

namespace LinuxSyscalls

variable (s : LinuxSyscalls)

def toHost (guestAddress : UInt64) : UInt64 := guestAddress + s.guestBase

def toGuest (hostAddress : UInt64) : UInt64 := hostAddress - s.guestBase

def new (guestIs32bit : Bool) (guestBase : UInt64) : LinuxSyscalls :=
  ⟨guestIs32bit, guestBase, 0, 0, 0, [], []⟩

theorem new_agrees : (new false 0).guestBase = 0 := rfl

def cloneInto (s child : LinuxSyscalls) : LinuxSyscalls :=
  { child with
    heapBase := s.heapBase
    heapLimit := s.heapLimit
    heapBreak := s.heapBreak
    mappings := s.mappings
    imageData := s.imageData }

def rebaseHostRecords (delta : UInt64) : LinuxSyscalls :=
  { s with
    mappings := s.mappings.map fun (begin, length) => (begin + delta, length)
    imageData := s.imageData.map fun region => { region with begin := region.begin + delta } }

def initialiseHeap (base reserved : UInt64) : LinuxSyscalls :=
  { s with
    heapBase := base
    heapBreak := base
    heapLimit := base + reserved }

def adoptImage (_s : LinuxSyscalls) (is32bit : Bool) (base heap reserved : UInt64) :
    LinuxSyscalls :=
  ⟨is32bit, base, heap, heap + reserved, heap, [], []⟩

end LinuxSyscalls

/-- A process. Its offset is kept twice, here and in the system call layer. -/
structure GuestProcess where
  is32bit : Bool
  guestBase : UInt64
  space : GuestAddressSpace
  syscalls : LinuxSyscalls
  agrees : syscalls.guestBase = guestBase

namespace GuestProcess

/-- What a fork is asked for. `cow` is off only under `FATHOM_NO_COW_FORK`. -/
structure ForkRequest where
  cow : Bool
  stack : UInt64
  sharesMemory : Bool

def ForkRequest.copies (r : ForkRequest) : Bool := r.cow && !(r.stack != 0 && r.sharesMemory)

def eagain : Int := -11

/-- The child of a fork. `reserved` is the span the host found for a new arena,
if it did. -/
def forkProcess (parent : GuestProcess) (request : ForkRequest) (reserved : Option Geometry)
    (shared : List (UInt64 × UInt64)) (h : Host) : Except Int (GuestProcess × Host) :=
  if request.copies then
    match reserved with
    | none => .error eagain
    | some g =>
      let (childSpace, h) := forkInto parent.space parent.is32bit g shared h
      let childBase := childSpace.base
      let syscalls := (parent.syscalls.cloneInto
        (LinuxSyscalls.new parent.is32bit childBase)).rebaseHostRecords
          (childSpace.base - parent.space.base)
      .ok (⟨parent.is32bit, childBase, childSpace, syscalls, rfl⟩, h)
  else
    let childBase := parent.guestBase
    let syscalls := parent.syscalls.cloneInto (LinuxSyscalls.new parent.is32bit childBase)
    .ok (⟨parent.is32bit, childBase, parent.space, syscalls, rfl⟩, h)

end GuestProcess

/-! ## The wait of a fork -/

inductive ForkStage where
  | bounded
  | unbounded
  deriving DecidableEq

inductive ForkTurn where
  | returns
  | waits (stage : ForkStage)
  | blocked
  deriving DecidableEq

/-- The end of `ForkProcess`. The bounded wait comes to its end in any case; the
other one has none of its own. -/
def forkWait (stack : UInt64) (released : Bool) : ForkStage → ForkTurn
  | .bounded =>
    if released then .returns
    else if stack ≠ 0 then .returns
    else .waits .unbounded
  | .unbounded => if released then .returns else .blocked

/-- A fork whose child gets a copy of the memory. -/
abbrev CopyingFork := { r : GuestProcess.ForkRequest // r.copies = true }

/-- What a process is about to do, with the memory it goes on with. -/
inductive GuestAction (σ : Type) where
  | internal (next : σ)
  | write (pipe : Nat) (byte : UInt8) (next : σ)
  | read (pipe : Nat) (next : UInt8 → σ)
  | fork (request : CopyingFork) (parent : Nat → σ) (child : σ)
  | exec (next : σ)
  | exit

structure GuestProgram (σ : Type) where
  next : σ → GuestAction σ
  capacity : Nat → Nat

/-- What an action comes to, once the pipes have let it through. -/
inductive ActionOutcome (σ : Type) where
  | goes (memory : σ)
  | forks (request : CopyingFork) (parent : Nat → σ) (child : σ)
  | execs (memory : σ)
  | exits

abbrev Pipes := Nat → List UInt8

def Pipes.set (pipes : Pipes) (pipe : Nat) (bytes : List UInt8) : Pipes :=
  fun other => if other = pipe then bytes else pipes other

def GuestProgram.act {σ : Type} (m : GuestProgram σ) (pipes : Pipes) :
    GuestAction σ → Option (Pipes × ActionOutcome σ)
  | .internal memory => some (pipes, .goes memory)
  | .write pipe byte memory =>
    if (pipes pipe).length < m.capacity pipe
      then some (pipes.set pipe (pipes pipe ++ [byte]), .goes memory) else none
  | .read pipe next =>
    match pipes pipe with
    | [] => none
    | byte :: rest => some (pipes.set pipe rest, .goes (next byte))
  | .fork request parent child => some (pipes, .forks request parent child)
  | .exec memory => some (pipes, .execs memory)
  | .exit => some (pipes, .exits)

inductive Task (σ : Type) where
  | running (memory : σ)
  | forking (child : Nat) (request : CopyingFork) (stage : ForkStage) (memory : σ)
  | exited

/-- The processes of a session, their pipes, and which of them have let go of
their parent. -/
structure Tasks (σ : Type) where
  pipes : Pipes
  task : Nat → Option (Task σ)
  released : Nat → Bool
  nextPid : Nat

namespace Tasks

variable {σ : Type}

def set (s : Tasks σ) (pid : Nat) (t : Task σ) : Tasks σ :=
  { s with task := fun other => if other = pid then some t else s.task other }

def releaseParent (s : Tasks σ) (pid : Nat) : Tasks σ :=
  { s with released := fun other => if other = pid then true else s.released other }

/-- What becomes of a process that has come through. A child that is started is
one that has not been released. -/
def settle (s : Tasks σ) (pid : Nat) : ActionOutcome σ → Tasks σ
  | .goes memory => s.set pid (.running memory)
  | .forks request parent child =>
    let childPid := s.nextPid
    let s := { s with
      nextPid := childPid + 1
      released := fun other => if other = childPid then false else s.released other }
    (s.set childPid (.running child)).set pid (.forking childPid request .bounded (parent childPid))
  | .execs memory => (s.set pid (.running memory)).releaseParent pid
  | .exits => (s.set pid .exited).releaseParent pid

def step (m : GuestProgram σ) (s : Tasks σ) (pid : Nat) : Option (Tasks σ) :=
  match s.task pid with
  | none => none
  | some .exited => none
  | some (.forking child request stage memory) =>
    match forkWait request.1.stack (s.released child) stage with
    | .returns => some (s.set pid (.running memory))
    | .waits stage => some (s.set pid (.forking child request stage memory))
    | .blocked => none
  | some (.running memory) =>
    (m.act s.pipes (m.next memory)).map fun (pipes, outcome) => { s with pipes }.settle pid outcome

def start (memory : σ) : Tasks σ where
  pipes _ := []
  task pid := if pid = 1 then some (.running memory) else none
  released _ := false
  nextPid := 2

/-- A process that is scheduled and cannot step stays where it is. -/
def run (m : GuestProgram σ) (s : Tasks σ) (pids : List Nat) : Tasks σ :=
  pids.foldl (fun s pid => (s.step m pid).getD s) s

end Tasks

end Fathom
