import Fathom.Runtime.Loader
import Fathom.Runtime.Syscalls
import Fathom.Runtime.GuestPath

/-!
# Programs and the processes of a session (`fathom_runtime.cpp`)

`LoadProgram` puts a program, its interpreter, its stack and its heap into an arena, and
`ReleaseProgramData` gives the stack and the heap back when the process exits or has
replaced its image.
-/

namespace Fathom

open Lib Spanned

/-! ## LoadProgram -/

def kHeapReservation : UInt64 := 128 * 1024 * 1024

def LoadedImage.toGuestAddresses (image : LoadedImage) (guestBase : UInt64) : LoadedImage :=
  if guestBase = 0 then image
  else
    let imageBegin := image.imageBegin - guestBase
    { image with
      entry := image.entry - guestBase
      phdrAddress := if image.phdrAddress ≠ 0 then image.phdrAddress - guestBase else 0
      imageBegin
      imageEnd := image.imageEnd - guestBase
      loadBase := image.loadBase - (image.imageBegin - imageBegin) }

def LoadedImage.none : LoadedImage := ⟨0, 0, 0, 0, 0, 0, 0⟩

structure LoadedProgram where
  image : LoadedImage
  interpreter : LoadedImage
  stack : StackImage
  dynamic : Bool
  heap : UInt64
  entry : UInt64
  is32bit : Bool
  guestBase : UInt64

/-- A program as the host has it: its file, or what `ReadHeaders` finds wrong
with it; whether there is a guest root; and what can be read there under the
name of an interpreter. -/
structure ProgramFiles where
  program : Except String ElfFile
  hasRoot : Bool
  loader : List UInt8 → Option (Except String ElfFile)

inductive ProgramError where
  | headers (error : String)
  | image (error : LoadError)
  | noRoot (interpreter : List UInt8)
  | noLoader (interpreter : List UInt8)
  | loaderHeaders (interpreter : List UInt8) (error : String)
  | loader (interpreter : List UInt8) (error : LoadError)
  | stack (error : StackError)
  | noHeap

def textOf (bytes : List UInt8) : String := String.ofList (bytes.map fun b => Char.ofNat b.toNat)

def ProgramError.message : ProgramError → String
  | headers error => error
  | image error => error.message
  | noRoot interpreter => "this program is dynamically linked and needs " ++ textOf interpreter ++
      ", but no guest root filesystem is configured."
  | noLoader interpreter => "this program needs its dynamic loader, " ++ textOf interpreter ++
      ", which the guest root filesystem does not provide."
  | loaderHeaders interpreter error => "could not load the dynamic loader " ++
      textOf interpreter ++ ": " ++ error
  | loader interpreter error => "could not load the dynamic loader " ++
      textOf interpreter ++ ": " ++ error.message
  | stack error => error.message
  | noHeap => "could not reserve the guest heap"

/-- What comes after a step that worked. A step that failed leaves behind what
it had done. -/
def Out.andThen {ε ε' α β : Type} (out : Out (Except ε α)) (wrap : ε → ε')
    (next : α → GuestAddressSpace → Host → Out (Except ε' β)) : Out (Except ε' β) :=
  match out.ret with
  | .error error => ⟨.error (wrap error), out.host, out.space⟩
  | .ok value => next value out.space out.host

structure ProgramRequest where
  files : ProgramFiles
  start : StartArguments
  stackSize : UInt64

namespace GuestAddressSpace

variable (s : GuestAddressSpace)

def loadInterpreter (h : Host) (guestBase : UInt64) (files : ProgramFiles)
    (inspection : ElfInspection) (image : LoadedImage) : Out (Except ProgramError LoadedImage) :=
  if inspection.kind ≠ .dynamic then ⟨.ok .none, h, s⟩
  else if !files.hasRoot then ⟨.error (.noRoot inspection.interpreter), h, s⟩
  else
    match files.loader inspection.interpreter with
    | none => ⟨.error (.noLoader inspection.interpreter), h, s⟩
    | some (.error error) => ⟨.error (.loaderHeaders inspection.interpreter error), h, s⟩
    | some (.ok file) =>
      (s.loadElf h file (image.imageEnd + guestBase) guestBase).andThen
        (.loader inspection.interpreter) fun interpreter s h =>
          ⟨.ok (interpreter.toGuestAddresses guestBase), h, s⟩

def reserveHeap (h : Host) (guestBase imagesEnd : UInt64) : Out (Except ProgramError UInt64) :=
  let out := s.allocate h kHeapReservation (imagesEnd + guestBase)
    (kGuestProtRead ||| kGuestProtWrite)
  if out.ret = 0 then ⟨.error .noHeap, out.host, out.space⟩
  else ⟨.ok (out.ret - guestBase), out.host, out.space⟩

def loadProgram (h : Host) (guestBase : UInt64) (r : ProgramRequest) :
    Out (Except ProgramError LoadedProgram) :=
  match r.files.program with
  | .error error => ⟨.error (.headers error), h, s⟩
  | .ok file =>
    match inspectElf file with
    | .error error => ⟨.error (.image error), h, s⟩
    | .ok inspection =>
      (s.loadElf h file 0 guestBase).andThen .image fun image s h =>
      let image := image.toGuestAddresses guestBase
      (s.loadInterpreter h guestBase r.files inspection image).andThen id fun interpreter s h =>
      let dynamic := inspection.kind == .dynamic
      (s.buildInitialStack h guestBase inspection.is32bit image r.start
        (if dynamic then interpreter.loadBase else 0) r.stackSize).andThen .stack fun stack s h =>
      (s.reserveHeap h guestBase (wordMax image.imageEnd interpreter.imageEnd)).andThen id
        fun heap s h =>
      ⟨.ok
        { image
          interpreter
          stack
          dynamic
          heap
          entry := if dynamic then interpreter.entry else image.entry
          is32bit := inspection.is32bit
          guestBase }, h, s⟩

/-- `ReleaseProgramData`: the stack and the heap, as they were loaded. The
images stay. -/
def releaseProgramData (h : Host) (program : LoadedProgram) : GuestAddressSpace × Host :=
  let (s, h) :=
    if program.stack.stackBase ≠ 0 ∧ program.stack.stackSize ≠ 0 then
      let out := s.release h program.stack.stackBase program.stack.stackSize
      (out.space, out.host)
    else (s, h)
  if program.heap ≠ 0 then
    let out := s.release h (program.heap + program.guestBase) kHeapReservation
    (out.space, out.host)
  else (s, h)

end GuestAddressSpace

/-! ## The session -/

/-- A process that runs. `previous` is the program an exec replaced, until
`RunProcess` has started the new one. -/
structure Running where
  syscalls : LinuxSyscalls
  program : LoadedProgram
  ownsProgram : Bool
  previous : Option LoadedProgram

/-- The session's own arena, which its 64-bit processes share, and what their programs hold in
it. `FathomSession` below has the tables of every arena, and no system calls. -/
structure Session where
  space : GuestAddressSpace
  shared : SharedTable
  host : Host
  processes : Nat → Option Running

namespace Session

variable (pid : Nat) (s : Session) (p : Running)

/-- The session as one of its processes sees it at a system call. -/
def sys : Sys :=
  ⟨⟨p.syscalls.guestIs32bit, p.syscalls.guestBase, s.space, p.syscalls, rfl⟩, s.shared, s.host⟩

def put (p : Option Running) : Session :=
  { s with processes := fun q => if q = pid then p else s.processes q }

def withSpace (space : GuestAddressSpace) (host : Host) : Session := { s with space, host }

def spawn (guestBase : UInt64) (r : ProgramRequest) : Session :=
  let out := s.space.loadProgram s.host guestBase r
  let s := s.withSpace out.space out.host
  match out.ret with
  | .error _ => s
  | .ok program =>
    s.put pid (some
      { syscalls := (LinuxSyscalls.new program.is32bit guestBase).initialiseHeap program.heap
          kHeapReservation
        program
        ownsProgram := true
        previous := none })

def call (c : MemoryCall) : Session :=
  let x := (c.run (s.sys p)).sys
  { s with space := x.space, shared := x.shared, host := x.host }.put pid
    (some { p with syscalls := x.process.syscalls })

def exec (r : ProgramRequest) : Session :=
  let out := s.space.loadProgram s.host 0 r
  let s := s.withSpace out.space out.host
  match out.ret with
  | .error _ => s
  | .ok program =>
    s.put pid (some
      { syscalls := p.syscalls.adoptImage program.is32bit 0 program.heap kHeapReservation
        program
        ownsProgram := true
        previous := if p.ownsProgram then some p.program else none })

def started : Session :=
  match p.previous with
  | none => s
  | some program =>
    let (space, host) := s.space.releaseProgramData s.host program
    (s.withSpace space host).put pid (some { p with previous := none })

def exit : Session :=
  let (space, host) := if p.ownsProgram
    then s.space.releaseProgramData s.host p.program else (s.space, s.host)
  (s.withSpace space host).put pid none

end Session

inductive SessionEvent where
  | spawn (guestBase : UInt64) (r : ProgramRequest)
  | call (c : MemoryCall)
  | exec (r : ProgramRequest)
  | started
  | exit

/-- An event of a process. Nothing of a process runs between its exec and the
start of the new image, and only its exit can come there. -/
def Session.step (s : Session) (pid : Nat) : SessionEvent → Option Session
  | .spawn guestBase r =>
    match s.processes pid with
    | none => some (s.spawn pid guestBase r)
    | some _ => none
  | .call c =>
    match s.processes pid with
    | some p => if p.previous.isNone then some (s.call pid p c) else none
    | none => none
  | .exec r =>
    match s.processes pid with
    | some p => if p.previous.isNone then some (s.exec pid p r) else none
    | none => none
  | .started => (s.processes pid).map (s.started pid)
  | .exit => (s.processes pid).map (s.exit pid)

/-! ## The arenas and the processes of a session (`fathom_runtime.cpp`) -/

/-- A `GuestAddressSpace*`: the session's own, or one of `arenas32`. A pointer
to an arena is a number that is never used again. -/
inductive SpacePtr where
  | null
  | session
  | own (id : Nat)
  deriving DecidableEq

structure Arena32 where
  id : Nat
  space : GuestAddressSpace

structure Arenas where
  arenas : List Arena32
  next : Nat
  once : (arenas.map Arena32.id).Nodup
  fresh : ∀ a ∈ arenas, a.id < next

namespace Arenas

def push (t : Arenas) (space : GuestAddressSpace) : Arenas where
  arenas := t.arenas ++ [⟨t.next, space⟩]
  next := t.next + 1
  once := by
    rw [List.map_append, List.nodup_append]
    refine ⟨t.once, List.nodup_singleton _, fun id hid other hother heq => ?_⟩
    obtain ⟨a, ha, rfl⟩ := List.mem_map.mp hid
    rw [List.map_singleton, List.mem_singleton] at hother
    have hlt := t.fresh a ha
    rw [heq, hother] at hlt
    exact Nat.lt_irrefl _ hlt
  fresh a ha := by
    rcases List.mem_append.mp ha with hold | hnew
    · exact Nat.lt_succ_of_lt (t.fresh a hold)
    · rw [List.mem_singleton.mp hnew]
      exact Nat.lt_succ_self _

def erase (t : Arenas) (id : Nat) : Arenas where
  arenas := t.arenas.filter fun a => a.id != id
  next := t.next
  once := t.once.sublist (List.filter_sublist.map _)
  fresh a ha := t.fresh a (List.mem_of_mem_filter ha)

def set (t : Arenas) (id : Nat) (space : GuestAddressSpace) : Arenas where
  arenas := t.arenas.map fun a => if a.id = id then { a with space } else a
  next := t.next
  once := by
    have hids : (t.arenas.map fun a => if a.id = id then { a with space } else a).map Arena32.id =
        t.arenas.map Arena32.id := by
      rw [List.map_map]
      refine List.map_congr_left fun a _ => ?_
      simp only [Function.comp_apply]
      split
      · rfl
      · rfl
    rw [hids]
    exact t.once
  fresh a ha := by
    obtain ⟨old, hold, rfl⟩ := List.mem_map.mp ha
    split
    · exact t.fresh old hold
    · exact t.fresh old hold

def find (t : Arenas) (id : Nat) : Option GuestAddressSpace :=
  (t.arenas.find? fun a => a.id == id).map Arena32.space

end Arenas

structure GuestThreadRecord where
  tid : Nat
  started : Bool
  finished : Bool
  deriving DecidableEq

def GuestThreadRecord.runs (t : GuestThreadRecord) : Bool := t.started && !t.finished

structure ProcessRecord where
  ppid : Nat
  path : List Char
  is32bit : Bool
  guestBase : UInt64
  space : SpacePtr
  previousSpace : SpacePtr
  borrowedSpace : SpacePtr
  syscalls : LinuxSyscalls
  program : LoadedProgram
  ownsProgram : Bool
  /-- `previous_program`, while there is one. -/
  previous : Option LoadedProgram
  threads : List GuestThreadRecord
  threadStarted : Bool
  frozenThreads : List Nat
  finished : Bool
  joined : Bool
  exitStatus : Int

structure ProcessTable where
  entry : Nat → Option ProcessRecord
  nextPid : Nat
  fresh : ∀ pid, nextPid ≤ pid → entry pid = none

namespace ProcessTable

variable (t : ProcessTable)

def takePid : ProcessTable :=
  { t with
    nextPid := t.nextPid + 1
    fresh := fun pid h => t.fresh pid (Nat.le_of_succ_le h) }

def insert (pid : Nat) (p : ProcessRecord) : ProcessTable where
  entry q := if q = pid then some p else t.entry q
  nextPid := max t.nextPid (pid + 1)
  fresh q h := by
    rw [if_neg (by omega)]
    exact t.fresh q (by omega)

def erase (pid : Nat) : ProcessTable where
  entry q := if q = pid then none else t.entry q
  nextPid := t.nextPid
  fresh q h := by
    split
    · rfl
    · exact t.fresh q h

def modify (pid : Nat) (f : ProcessRecord → ProcessRecord) : ProcessTable where
  entry q := if q = pid then (t.entry q).map f else t.entry q
  nextPid := t.nextPid
  fresh q h := by
    rw [t.fresh q h]
    split
    · rfl
    · rfl

def mapAll (f : ProcessRecord → ProcessRecord) : ProcessTable where
  entry q := (t.entry q).map f
  nextPid := t.nextPid
  fresh q h := by
    rw [t.fresh q h]
    rfl

end ProcessTable

/-- What a session is set up with: the environment's switches, the root and the
size of a stack. -/
structure Settings where
  cowForks : Bool
  freezeForCopy : Bool
  freezeWanted : Bool
  borrowDisabled : Bool
  relocate64 : Bool
  guestRoot : List Char
  stackSize : UInt64

/-- `fathom_session`. The two contexts are the session's own, for code in its
first arena; `freezes` is how often invalidations are held. -/
structure FathomSession where
  space : GuestAddressSpace
  arenas32 : Arenas
  engine32 : Bool
  engine64 : Bool
  table : ProcessTable
  freezes : Int
  host : Host

namespace FathomSession

variable (s : FathomSession)

def find (pid : Nat) : Option ProcessRecord := s.table.entry pid

def modify (s : FathomSession) (pid : Nat) (f : ProcessRecord → ProcessRecord) : FathomSession :=
  { s with table := s.table.modify pid f }

def spaceAt : SpacePtr → Option GuestAddressSpace
  | .null => none
  | .session => some s.space
  | .own id => s.arenas32.find id

def setSpace (ptr : SpacePtr) (space : GuestAddressSpace) (host : Host) : FathomSession :=
  match ptr with
  | .null => { s with host }
  | .session => { s with space, host }
  | .own id => { s with arenas32 := s.arenas32.set id space, host }

def baseOf (ptr : SpacePtr) : UInt64 :=
  match s.spaceAt ptr with
  | some space => space.base
  | none => 0

/-! ## Arenas and contexts -/

def engineFor (is32bit creates : Bool) : Bool × FathomSession :=
  if is32bit then if s.engine32 then (true, s) else (creates, { s with engine32 := creates })
  else if s.engine64 then (true, s) else (creates, { s with engine64 := creates })

def engineIn (ptr : SpacePtr) (is32bit creates : Bool) : Bool × FathomSession :=
  match ptr with
  | .own id => ((s.arenas32.find id).isSome, s)
  | _ => s.engineFor is32bit creates

/-- `NewArena`: a span from the host and a context from the engine, or nothing. -/
def newArena (s : FathomSession) (is32bit : Bool) (reserved : Option Geometry) (context : Bool) :
    SpacePtr × FathomSession :=
  match reserved with
  | none => (.null, s)
  | some g =>
    if !context then (.null, s)
    else
      (.own s.arenas32.next, { s with
          arenas32 := s.arenas32.push (Fathom.newArena is32bit g)
          host := (s.host.mapFreshAnonymous g.base g.size).2 })

end FathomSession

def ProcessRecord.names (p : ProcessRecord) (ptr : SpacePtr) : Bool :=
  p.space == ptr || p.borrowedSpace == ptr || p.previousSpace == ptr

namespace FathomSession

variable (pid : Nat) (s : FathomSession)

/-- Whether a process besides this one, and not finished, still names an arena. -/
def usedByOther (ptr : SpacePtr) : Bool :=
  (List.range s.table.nextPid).any fun other =>
    other != pid && (s.find other).any fun p => !p.finished && p.names ptr

def releaseArena (candidate : SpacePtr) : FathomSession :=
  match candidate with
  | .own id => if s.usedByOther pid candidate then s else { s with arenas32 := s.arenas32.erase id }
  | _ => s

/-- `ReleaseOwnArenas`. Only what it was running in and what it had run in
before are looked at. -/
def releaseOwnArenas : FathomSession :=
  match s.find pid with
  | none => s
  | some p =>
    let s' := (s.releaseArena pid p.space).releaseArena pid p.previousSpace
    if s'.arenas32.arenas.length = s.arenas32.arenas.length then s'
    else s'.modify pid fun p =>
      { p with
        space := if p.space = .session then .session else .null
        previousSpace := .null }

/-! ## Threads -/

def joinFinishedChildren : FathomSession :=
  { s with table := s.table.mapAll fun p =>
      if p.finished && p.threadStarted && !p.joined then { p with joined := true } else p }

/-- The threads `FreezeOtherThreads` goes through: the first of the process,
which has its number, and those that run. -/
def otherThreads (p : ProcessRecord) (pid caller : Nat) : List Nat :=
  (if pid ≠ caller ∧ p.threadStarted then [pid] else []) ++
    (p.threads.filter fun t => t.runs && t.tid != caller).map GuestThreadRecord.tid

/-- A thread that came to a stop outside the system call layer stays stopped. -/
def freeze (stops : Nat → Bool) (s : FathomSession) (tid : Nat) : FathomSession :=
  match s.find pid with
  | none => s
  | some p =>
    if stops tid then
      { s with freezes := if p.frozenThreads = [] then s.freezes + 1 else s.freezes }.modify pid
        fun p => { p with frozenThreads := p.frozenThreads ++ [tid] }
    else s

def freezeOtherThreads (c : Settings) (pid caller : Nat) (force : Bool) (stops : Nat → Bool)
    (creates : Bool) : Bool × FathomSession :=
  match s.find pid with
  | none => (false, s)
  | some p =>
    if !c.freezeWanted && !force then (false, s)
    else
      let s := (s.engineIn p.space p.is32bit creates).2
      ((otherThreads p pid caller).all stops,
        (otherThreads p pid caller).foldl (freeze pid stops) s)

def thawThreads : FathomSession :=
  match s.find pid with
  | none => s
  | some p =>
    if p.frozenThreads = [] then s
    else { s with freezes := s.freezes - 1 }.modify pid fun p => { p with frozenThreads := [] }

/-- `StopAndJoinThreadsOf`, and `StopAndJoinOtherThreadsOf`: no record of a
thread is left, its own caller's included. -/
def stopAndJoinThreadsOf : FathomSession := s.modify pid fun p => { p with threads := [] }

end FathomSession

/-! ## ForkProcess -/

structure ForkArguments where
  caller : Nat
  thread : Nat
  stack : UInt64
  sharesMemory : Bool

def ForkArguments.ownStack (r : ForkArguments) : Bool := r.stack != 0 && r.sharesMemory

def ForkArguments.copies (r : ForkArguments) (c : Settings) : Bool :=
  GuestProcess.ForkRequest.copies ⟨c.cowForks, r.stack, r.sharesMemory⟩

/-- What a fork is answered: the span and the context for an arena, a context of
the session's if one is to be made, which threads stop, the shared views in the
parent's arena, the child's guest thread and its host thread. -/
structure ForkAnswers where
  reserved : Option Geometry
  arenaContext : Bool
  sessionContext : Bool
  stops : Nat → Bool
  shared : List (UInt64 × UInt64)
  threadForked : Bool
  hostThread : Bool

namespace FathomSession

variable (s : FathomSession) (c : Settings) (r : ForkArguments) (a : ForkAnswers)

def copyParent (parent : ProcessRecord) (childSpace : SpacePtr) : FathomSession :=
  let s := if c.freezeForCopy
    then (s.freezeOtherThreads c r.caller r.thread true a.stops a.sessionContext).2 else s
  match s.spaceAt parent.space, s.spaceAt childSpace with
  | some parentSpace, some space =>
    let (space, host) := copyAddressSpace parentSpace space a.shared s.host
    s.setSpace childSpace space host
  | _, _ => s

def freezeForBorrow (parent : ProcessRecord) : FathomSession :=
  let threaded := parent.threads.any GuestThreadRecord.runs
  let s := if threaded
    then (s.freezeOtherThreads c r.caller r.thread false a.stops a.sessionContext).2 else s
  if c.borrowDisabled && threaded then s.thawThreads r.caller else s

def forkedChild (copies : Bool) (parent : ProcessRecord) (childSpace : SpacePtr) :
    ProcessRecord :=
  let childBase := if copies then s.baseOf childSpace else parent.guestBase
  let syscalls := parent.syscalls.cloneInto (LinuxSyscalls.new parent.is32bit childBase)
  { ppid := r.caller
    path := parent.path
    is32bit := parent.is32bit
    guestBase := childBase
    space := childSpace
    previousSpace := .null
    borrowedSpace := if copies then .null else parent.space
    syscalls := if copies
      then syscalls.rebaseHostRecords (childBase - s.baseOf parent.space) else syscalls
    program := parent.program
    ownsProgram := false
    previous := none
    threads := []
    threadStarted := false
    frozenThreads := []
    finished := false
    joined := false
    exitStatus := 0 }

def startChild (childPid : Nat) (child : ProcessRecord) (hostThread : Bool) : Int × FathomSession :=
  let s := { s with table := s.table.insert childPid child }
  if hostThread then (childPid, s.modify childPid fun p => { p with threadStarted := true })
  else (-11, { s with table := s.table.erase childPid })

def forkProcess : Int × FathomSession :=
  let s := s.joinFinishedChildren
  match s.find r.caller with
  | none => (-1, s)
  | some parent =>
    let childPid := s.table.nextPid
    let s := { s with table := s.table.takePid }
    let copies := r.copies c
    let (childSpace, s) := if copies
      then s.newArena parent.is32bit a.reserved a.arenaContext else (parent.space, s)
    if copies ∧ childSpace = .null then (-11, s)
    else
      let s := if copies then s.copyParent c r a parent childSpace else s
      let child := s.forkedChild r copies parent childSpace
      let (engine, s) := s.engineIn childSpace parent.is32bit a.sessionContext
      if !(engine && a.threadForked) then (-11, s)
      else
        let s := if copies || r.ownStack then s else s.freezeForBorrow c r a parent
        s.startChild childPid child a.hostThread

end FathomSession

/-! ## ExecProcess -/

def FileBytes.ofChars (bytes : List Char) : FileBytes :=
  ⟨bytes.length, fun k => UInt8.ofNat (bytes.getD k '\x00').toNat⟩

def HostContents.elf (k : HostContents) (hostPath : List Char) : Except String ElfFile :=
  match k.read hostPath with
  | none => .error ("cannot open " ++ String.ofList hostPath)
  | some bytes => (readHeaders (.ofChars bytes)).mapError HeaderError.message

def bytesOfChars (text : List Char) : List UInt8 := text.map fun c => UInt8.ofNat c.toNat

def charsOfBytes (bytes : List UInt8) : List Char := bytes.map fun b => Char.ofNat b.toNat

def HostContents.programFiles (k : HostContents) (root hostPath : List Char) : ProgramFiles where
  program := k.elf hostPath
  hasRoot := root ≠ []
  loader interpreter :=
    let loader := resolveGuestPathOnHost k.files root (charsOfBytes interpreter) true
    (k.read loader).map fun bytes => (readHeaders (.ofChars bytes)).mapError HeaderError.message

structure ExecAnswers where
  reserved : Option Geometry
  arenaContext : Bool
  sessionContext : Bool
  random : List UInt8

structure ExecProgram where
  files : ProgramFiles
  hostPath : List Char
  path : List Char
  argv : List (List Char)
  envp : List (List Char)

def ExecProgram.inspection (e : ExecProgram) : Option ElfInspection :=
  match e.files.program with
  | .error _ => none
  | .ok file => (inspectElf file).toOption

def ExecProgram.request (e : ExecProgram) (c : Settings) (a : ExecAnswers) : ProgramRequest where
  files := e.files
  start :=
    { argv := e.argv.map bytesOfChars
      envp := e.envp.map bytesOfChars
      execPath := bytesOfChars e.hostPath
      random := a.random }
  stackSize := c.stackSize

def ProcessRecord.adopt (p : ProcessRecord) (is32bit : Bool) (base : UInt64) (space : SpacePtr)
    (path : List Char) (loaded : LoadedProgram) : ProcessRecord :=
  { p with
    previous := if p.ownsProgram then some p.program else none
    program := loaded
    ownsProgram := true
    is32bit
    guestBase := base
    previousSpace := p.space
    space
    syscalls := p.syscalls.adoptImage is32bit base loaded.heap kHeapReservation
    path }

namespace FathomSession

variable (s : FathomSession) (c : Settings) (a : ExecAnswers)

def execInto (pid : Nat) (e : ExecProgram) (is32bit : Bool) (newSpace : SpacePtr)
    (newBase : UInt64) : Option Int × FathomSession :=
  let (engine, s) := s.engineIn newSpace is32bit a.sessionContext
  if !engine then (some (-8), s)
  else
    match s.spaceAt newSpace with
    | none => (some (-8), s)
    | some space =>
      let out := space.loadProgram s.host newBase (e.request c a)
      let s := s.setSpace newSpace out.space out.host
      match out.ret with
      | .error _ => (some (-8), s)
      | .ok loaded => (none, s.modify pid (·.adopt is32bit newBase newSpace e.path loaded))

/-- `ExecProcess`, for a program that is no script. No answer is an exec that
does not come back. -/
def execProgram (pid : Nat) (e : ExecProgram) : Option Int × FathomSession :=
  let s := s.stopAndJoinThreadsOf pid
  match e.inspection with
  | none => (some (-8), s)
  | some inspection =>
    let ownSpace := inspection.is32bit || c.relocate64
    if ownSpace then
      let (newSpace, s) := s.newArena inspection.is32bit a.reserved a.arenaContext
      if newSpace = .null then (some (-12), s)
      else s.execInto c a pid e inspection.is32bit newSpace (s.baseOf newSpace)
    else s.execInto c a pid e inspection.is32bit .session 0

/-- `ExecProcess`. Nothing, if it calls itself more often than `hops`. -/
def execProcess (k : HostContents) (hops pid : Nat) (r : ExecRequest) (envp : List (List Char)) :
    Option (Option Int × FathomSession) :=
  match s.find pid with
  | none => some (some (-1), s)
  | some p =>
    match execResolve k c.guestRoot ⟨pid, p.path⟩ hops r with
    | none => none
    | some .missing => some (some (-2), s)
    | some (.program hostPath path argv) =>
      some (s.execProgram c a pid ⟨k.programFiles c.guestRoot hostPath, hostPath, path, argv, envp⟩)

/-! ## The life of a process -/

def releaseProgramIn (ptr : SpacePtr) (program : LoadedProgram) : FathomSession :=
  match s.spaceAt ptr with
  | none => s
  | some space =>
    let (space, host) := space.releaseProgramData s.host program
    s.setSpace ptr space host

def releaseParent (pid : Nat) : FathomSession :=
  match s.find pid with
  | none => s
  | some p => s.thawThreads p.ppid

def execed (pid : Nat) : FathomSession :=
  let s := s.releaseParent pid
  match s.find pid with
  | none => s
  | some p =>
    match p.previous with
    | none => s
    | some program =>
      let ptr := if p.previousSpace = .null then .session else p.previousSpace
      (s.releaseProgramIn ptr program).modify pid fun p => { p with previous := none }

def finishProcess (pid : Nat) (status : Int) : FathomSession :=
  let s := (s.stopAndJoinThreadsOf pid).releaseParent pid
  let s := match s.find pid with
    | none => s
    | some p => if p.ownsProgram then s.releaseProgramIn p.space p.program else s
  let s := s.modify pid fun p => { p with finished := true, exitStatus := status }
  s.releaseOwnArenas pid

/-- `WaitForChild`, one look at the table: a child that can be reaped, no
children, or none yet. -/
def waitForChild (callerPid : Nat) (wantedPid : Int) : Int × FathomSession :=
  let isChild := fun pid : Nat => (s.find pid).any fun p =>
    p.ppid == callerPid && (decide (wantedPid ≤ 0) || decide ((pid : Int) = wantedPid))
  let pids := List.range s.table.nextPid
  match pids.find? fun pid => isChild pid && (s.find pid).any ProcessRecord.finished with
  | some pid => (pid, { s with table := s.table.erase pid })
  | none => if pids.any isChild then (0, s) else (-10, s)

end FathomSession

/-! ## Runs -/

inductive ProcessEvent where
  | fork (r : ForkArguments) (a : ForkAnswers)
  | exec (pid : Nat) (a : ExecAnswers) (k : HostContents) (hops : Nat) (r : ExecRequest)
      (envp : List (List Char))
  | execed (pid : Nat)
  | exit (pid : Nat) (status : Int)
  | wait (callerPid : Nat) (wantedPid : Int)

/-- A process that has finished does nothing any more, and the first process of a
session, which has no thread of its own, never finishes. -/
def FathomSession.step (s : FathomSession) (c : Settings) : ProcessEvent → FathomSession
  | .fork r a => (s.forkProcess c r a).2
  | .exec pid a k hops r envp =>
    if (s.find pid).any (!·.finished) then
      match s.execProcess c a k hops pid r envp with
      | none => s
      | some out => out.2
    else s
  | .execed pid => if (s.find pid).any (!·.finished) then s.execed pid else s
  | .exit pid status =>
    if (s.find pid).any fun p => !p.finished && p.threadStarted then s.finishProcess pid status
    else s
  | .wait callerPid wantedPid => (s.waitForChild callerPid wantedPid).2

end Fathom
