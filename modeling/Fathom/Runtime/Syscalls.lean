import Fathom.Runtime.Fork
import Mathlib.Data.List.Infix

/-!
# The memory system calls and the check on a pointer (`linux_syscalls.cpp`)

The system calls that decide what a guest's memory is, as they are made on one process
(`Sys`), with the table of shared file views every process of the session writes to.
-/

namespace Fathom

open Lib Spanned

/-! ## Files -/

/-- What the host knows about an open file. A read need not return all that was
asked for: `reads` is what the `k`th of a row of reads stops at. -/
structure HostFile where
  path : List Char
  device : UInt64
  inode : UInt64
  size : UInt64
  bytes : Nat → UInt8
  reads : Nat → UInt64

/-- What the `k`th `pread` of a row returns: some of the bytes that are left,
and none only at the end of the file. -/
def HostFile.pread (file : HostFile) (k : Nat) (count position : UInt64) : UInt64 :=
  let left := if file.size > position then file.size - position else 0
  wordMin (wordMin count left) (wordMax 1 (file.reads k))

structure OpenFile where
  guestPath : List Char
  isFramebuffer : Bool
  host : HostFile

/-- Whether a mapped file is part of the C library, by the last component of
its name. -/
def isCLibraryPath (path : List Char) : Bool :=
  let base := (path.reverse.takeWhile (· ≠ '/')).reverse
  ['l', 'i', 'b', 'c', '.', 's', 'o'].isPrefixOf base ||
    ['l', 'i', 'b', 'c', '-'].isPrefixOf base ||
    ['l', 'i', 'b', 'p', 't', 'h', 'r', 'e', 'a', 'd'].isPrefixOf base ||
    ['l', 'd', '-'].isPrefixOf base || ['l', 'd', '-', 'l', 'i', 'n', 'u', 'x'].isPrefixOf base

/-! ## Shared views -/

structure SharedMappingSlot where
  begin : UInt64
  stop : UInt64
  device : UInt64
  inode : UInt64
  offset : UInt64
  writable : Bool
  deriving DecidableEq

def SharedMappingSlot.misses (slot : SharedMappingSlot) (begin stop : UInt64) : Bool :=
  slot.stop == 0 || decide (slot.stop ≤ begin) || decide (slot.begin ≥ stop)

def kSharedMappingSlots : Nat := 256

structure SharedTable where
  slots : List SharedMappingSlot
  low : UInt64
  high : UInt64

namespace SharedTable

variable (t : SharedTable)

def empty : SharedTable := ⟨[], 0xFFFFFFFFFFFFFFFF, 0⟩

def noteSharedMapping (begin length : UInt64) (file : HostFile) (offset : UInt64)
    (writable : Bool) : SharedTable :=
  if t.slots.length ≥ kSharedMappingSlots then t
  else
    { slots := t.slots ++ [⟨begin, begin + length, file.device, file.inode, offset, writable⟩]
      low := wordMin t.low begin
      high := wordMax t.high (begin + length) }

def fileIsWrittenThroughSharedMapping (file : HostFile) : Bool :=
  (decide (['/', '.', 'w', 'i', 'n', 'e', '-'] <:+: file.path) &&
    decide (['/', 's', 'e', 'r', 'v', 'e', 'r', '-'] <:+: file.path)) ||
  t.slots.any fun slot => slot.stop != 0 && slot.writable && slot.device == file.device &&
    slot.inode == file.inode

def misses (begin stop : UInt64) : Bool :=
  decide (stop ≤ begin) || decide (begin ≥ t.high) || decide (stop ≤ t.low)

def sharedMappingsIn (begin stop : UInt64) : List (UInt64 × UInt64) :=
  if t.misses begin stop then []
  else t.slots.filterMap fun slot =>
    if slot.misses begin stop then none
    else some (wordMax begin slot.begin, wordMin stop slot.stop)

def replaceSlots (begin stop hostPage : UInt64) :
    List SharedMappingSlot → Host → List SharedMappingSlot × Host
  | [], h => ([], h)
  | slot :: rest, h =>
    if slot.misses begin stop then
      let out := replaceSlots begin stop hostPage rest h
      (slot :: out.1, out.2)
    else
      let low := maskDown hostPage (wordMax begin slot.begin)
      let high := wordMin (maskUp hostPage (wordMin stop slot.stop)) slot.stop
      let h := (h.mprotect low (high - low) protRead).2
      let saved := h.mem
      let (ok, h) := h.mapReadWrite low (high - low)
      if ok then
        let h := h.store low (high - low) saved
        let slot := if low ≤ slot.begin ∧ high ≥ slot.stop
          then { slot with stop := 0 } else slot
        let out := replaceSlots begin stop hostPage rest h
        (slot :: out.1, out.2)
      else
        let out := replaceSlots begin stop hostPage rest h
        (slot :: out.1, out.2)

def replaceSharedMappingsIn (begin stop hostPage : UInt64) (h : Host) : SharedTable × Host :=
  if t.misses begin stop then (t, h)
  else
    let out := replaceSlots begin stop hostPage t.slots h
    ({ t with slots := out.1 }, out.2)

end SharedTable

/-! ## A process at a system call -/

structure Sys where
  process : GuestProcess
  shared : SharedTable
  host : Host

namespace Sys

variable (x : Sys)

def space (x : Sys) : GuestAddressSpace := x.process.space

def withSpace (space : GuestAddressSpace) (host : Host) : Sys :=
  { x with process := { x.process with space }, host }

def allocate (size hint : UInt64) (protection : Prot) : UInt64 × Sys :=
  let out := x.space.allocate x.host size hint protection
  (out.ret, x.withSpace out.space out.host)

def commitFixed (address size : UInt64) (protection : Prot) : Bool × Sys :=
  let out := x.space.commitFixed x.host address size protection
  (out.ret, x.withSpace out.space out.host)

def release (address size : UInt64) : Bool × Sys :=
  let out := x.space.release x.host address size
  (out.ret, x.withSpace out.space out.host)

def protect (address size : UInt64) (protection : Prot) : Bool × Sys :=
  let out := x.space.protect x.host address size protection
  (out.ret, x.withSpace out.space out.host)

def replaceSharedMappingsIn (begin stop : UInt64) : Sys :=
  let out := x.shared.replaceSharedMappingsIn begin stop x.space.pageSize x.host
  { x with shared := out.1, host := out.2 }

def notifyContentsReplaced (begin stop : UInt64) : Sys :=
  if stop > begin then x.withSpace (x.space.notify begin stop) x.host else x

def store (address length : UInt64) (bytes : Nat → UInt8) : Sys :=
  { x with host := x.host.store address length bytes }

def addMapping (placed length : UInt64) : Sys :=
  { x with process := { x.process with
      syscalls := { x.process.syscalls with
        mappings := x.process.syscalls.mappings ++ [(placed, length)] } } }

def addImage (region : ImageRegion) : Sys :=
  { x with process := { x.process with
      syscalls := { x.process.syscalls with
        imageData := x.process.syscalls.imageData ++ [region] } } }

def toHost (x : Sys) (address : UInt64) : UInt64 := x.process.syscalls.toHost address

def toGuest (x : Sys) (address : UInt64) : UInt64 := x.process.syscalls.toGuest address

def initialiseHeap (x : Sys) (base reserved : UInt64) : Sys :=
  { x with process := { x.process with
      syscalls := x.process.syscalls.initialiseHeap base reserved } }

/-- `GuestPointer`. It is asked whether the memory will be written, and does
not look. -/
def guestPointer (inHostHandler : Bool) (address size : UInt64) (_writable : Bool) :
    Option UInt64 :=
  if address = 0 ∨ size = 0 then none
  else
    let address := x.toHost address
    if !inHostHandler && !x.space.validate address size kGuestProtRead then none
    else some address

/-- `ShrinkHeapBelow`: the heap's unused tail, from the address on, is given up. -/
def shrinkHeapBelow (hostAddress : UInt64) : Sys :=
  let calls := x.process.syscalls
  if calls.heapBase = 0 then x
  else
    let page := x.space.pageSize
    let usedEnd := maskUp page (x.toHost calls.heapBreak)
    let limit := x.toHost calls.heapLimit
    if hostAddress < usedEnd ∨ hostAddress ≥ limit then x
    else
      let cut := maskDown page hostAddress
      let start := wordMax cut usedEnd
      if start < limit then
        let (ok, x) := x.release start (limit - start)
        if ok then
          { x with process := { x.process with
              syscalls := { x.process.syscalls with
                heapLimit := calls.heapLimit - (limit - start) } } }
        else x
      else x

end Sys

/-! ## mmap -/

def kMapShared : UInt32 := 0x01
def kMapFixed : UInt32 := 0x10
def kMapAnonymous : UInt32 := 0x20

def guestProtection (protection : UInt32) : Prot :=
  (if protection &&& 1 ≠ 0 then kGuestProtRead else 0) |||
    (if protection &&& 2 ≠ 0 then kGuestProtWrite else 0) |||
    (if protection &&& 4 ≠ 0 then kGuestProtExec else 0)

/-- The arguments of an `mmap`, with what its descriptor stands for. `display`
is the address of the framebuffer, zero when there is none. -/
structure MmapRequest where
  address : UInt64
  length : UInt64
  protection : UInt32
  flags : UInt32
  file : Option OpenFile
  offset : UInt64
  display : UInt64

namespace MmapRequest

variable (r : MmapRequest)

def anonymous : Bool := r.flags &&& kMapAnonymous != 0

def fixed : Bool := r.flags &&& kMapFixed != 0

def wantsShared : Bool := r.flags &&& kMapShared != 0

def recorded : Prot :=
  if guestProtection r.protection = 0 then kGuestProtRead else guestProtection r.protection

def viewWritable : Bool := r.wantsShared && r.protection &&& 2 != 0

end MmapRequest

structure SysOut where
  ret : Except Nat UInt64
  sys : Sys

def einval : Nat := 22
def enomem : Nat := 12
def ebadf : Nat := 9
def enodev : Nat := 19

namespace Sys

variable (x : Sys) (r : MmapRequest)

/-- Where an `mmap` goes, and the parts of that already in use, which an
anonymous one has to clear. Writable, whatever was asked for. -/
def mmapPlace (address : UInt64) : Option UInt64 × List (UInt64 × UInt64) × Sys :=
  let protection := r.recorded ||| kGuestProtWrite
  if r.fixed && address != 0 then
    if !x.space.contains address r.length then (none, [], x)
    else
      let stale := if r.anonymous
        then committedIn x.space.committed address (address + r.length) else []
      let x := x.replaceSharedMappingsIn address (address + r.length)
      let (ok, x) := x.commitFixed address r.length protection
      if ok then
        let x := if r.recorded.has kGuestProtExec
          then x.notifyContentsReplaced address (address + r.length) else x
        (some address, stale, x)
      else (none, [], x)
  else
    let x := if address != 0 then x.shrinkHeapBelow address else x
    let (placed, x) := x.allocate r.length address protection
    if placed = 0 then (none, [], x) else (some placed, [], x)

def mmapNoteImage (placed : UInt64) : Sys :=
  if r.recorded.has kGuestProtWrite && (r.fixed || !r.anonymous) then
    let isCLibrary :=
      if !r.anonymous then
        match r.file with
        | some file => isCLibraryPath file.guestPath
        | none => false
      else
        match x.process.syscalls.imageData.getLast? with
        | some previous => previous.isCLibrary &&
            decide (previous.begin + previous.size ≤ placed) &&
            decide (placed - (previous.begin + previous.size) < 0x10000)
        | none => false
    x.addImage ⟨placed, r.length, isCLibrary⟩
  else x

def mmapZero (placed low high : UInt64) : Sys :=
  let low := wordMax low placed
  let high := wordMin high (placed + r.length)
  if high > low then x.store low (high - low) (fun _ => 0) else x

def mmapClear (placed : UInt64) (stale : UInt64 × UInt64) : Sys :=
  let page := x.space.pageSize
  let low := maskUp page stale.1
  let high := maskDown page stale.2
  let x := if high > low
    then { x with host := x.space.dropPages x.host low (high - low) } else x
  let x := x.mmapZero r placed (maskDown page stale.1) (wordMin low stale.2)
  x.mmapZero r placed (wordMax high stale.1) (maskUp page stale.2)

def mmapAnonymous (placed : UInt64) (stale : List (UInt64 × UInt64)) : Sys :=
  let page := x.space.pageSize
  let x := stale.foldl (fun x piece => x.mmapClear r placed piece) x
  let headEnd := wordMin (maskUp page placed) (placed + r.length)
  let tailBegin := wordMax (maskDown page (placed + r.length)) headEnd
  let x := x.mmapZero r placed placed headEnd
  x.mmapZero r placed tailBegin (placed + r.length)

def mmapFinish (placed : UInt64) : SysOut :=
  let x := if r.recorded.has kGuestProtWrite then x
    else (x.protect placed r.length r.recorded).2
  ⟨.ok (x.toGuest placed), x.addMapping placed r.length⟩

/-- The read loop, until the mapping is full or the file ends. Every read but
the last brings something, so `fuel` need be no more than the length. -/
def copyLoop (file : HostFile) (placed : UInt64) :
    (fuel k : Nat) → (done : UInt64) → Host → Host
  | 0, _, _, h => h
  | fuel + 1, k, done, h =>
    if done < r.length then
      let bytes := file.pread k (r.length - done) (r.offset + done)
      if bytes = 0 then h
      else copyLoop file placed fuel (k + 1) (done + bytes)
        (h.store (placed + done) bytes fun y =>
          file.bytes (y - (placed + done).toNat + (r.offset + done).toNat))
    else h

def mmapCopy (file : HostFile) (placed : UInt64) : SysOut :=
  let x := { x with host := copyLoop r file placed r.length.toNat 0 0 x.host }
  x.mmapFinish r placed

/-- The file mapped for real over the arena's pages, as far as it goes. This
returns before the protection asked for is applied. -/
def mmapView (file : HostFile) (placed : UInt64) : SysOut :=
  let page := x.space.pageSize
  let protection := r.recorded ||| kGuestProtWrite
  let phase := r.offset % page
  let (base, x) := if phase != 0
    then ((x.release placed r.length).2).allocate (r.length + phase) 0 protection
    else (placed, x)
  if phase ≠ 0 ∧ base = 0 then ⟨.error enomem, x⟩
  else
    let placed := base + phase
    let fileOffset := r.offset - phase
    let afterOffset := if file.size > fileOffset then file.size - fileOffset else 0
    let rounded := wordMin (maskUp page (phase + r.length)) (maskUp page afterOffset)
    let (ok, h) := if rounded = 0 then (false, x.host)
      else x.host.mapFile page base rounded ⟨true, r.viewWritable⟩
        fun k => file.bytes (fileOffset.toNat + k)
    let x := { x with host := h }
    if ok then
      let shared := x.shared.noteSharedMapping base rounded file fileOffset r.viewWritable
      ⟨.ok (x.toGuest placed), { x with shared }.addMapping placed r.length⟩
    else if phase ≠ 0 then
      let (placed, x) := ((x.release base (r.length + phase)).2).allocate r.length 0 protection
      if placed = 0 then ⟨.error enomem, x⟩ else x.mmapCopy r file placed
    else x.mmapCopy r file placed

def mmapDescriptor (placed : UInt64) : SysOut :=
  match r.file with
  | none => ⟨.error ebadf, (x.release placed r.length).2⟩
  | some file =>
    if file.isFramebuffer then
      let x := (x.release placed r.length).2
      if r.display = 0 then ⟨.error enodev, x⟩ else ⟨.ok (x.toGuest r.display), x⟩
    else
      let livePrivate := !r.wantsShared &&
        x.shared.fileIsWrittenThroughSharedMapping file.host
      if (r.wantsShared || livePrivate) && (r.offset % x.space.pageSize == 0 || !r.fixed)
      then x.mmapView r file.host placed
      else x.mmapCopy r file.host placed

def doMmap : SysOut :=
  if r.length = 0 then ⟨.error einval, x⟩
  else
    let address := if r.address != 0 then x.toHost r.address else 0
    match x.mmapPlace r address with
    | (none, _, x) => ⟨.error enomem, x⟩
    | (some placed, stale, x) =>
      let x := x.mmapNoteImage r placed
      if r.anonymous then (x.mmapAnonymous r placed stale).mmapFinish r placed
      else x.mmapDescriptor r placed

def munmap (address length : UInt64) : SysOut :=
  let host := x.toHost address
  let x := { x with process := { x.process with
    syscalls := { x.process.syscalls with
      mappings := x.process.syscalls.mappings.filter fun (begin, size) =>
        !(decide (begin ≥ host) && decide (begin + size ≤ host + length)) } } }
  let x := x.replaceSharedMappingsIn host (host + length)
  let (ok, x) := x.release host length
  ⟨if ok then .ok 0 else .error einval, x⟩

def mprotect (address length : UInt64) (protection : UInt32) : SysOut :=
  let (ok, x) := x.protect (x.toHost address) length (guestProtection protection)
  ⟨if ok then .ok 0 else .error einval, x⟩

def kMremapMayMove : UInt64 := 1

/-- A mapping that grows moves, to a place of its own: it is copied there, and
what it had is released. -/
def mremap (address oldSize newSize flags : UInt64) : SysOut :=
  let oldAddress := x.toHost address
  if newSize ≤ oldSize then ⟨.ok address, x⟩
  else if flags &&& kMremapMayMove = 0 then ⟨.error enomem, x⟩
  else
    let (placed, x) := x.allocate newSize 0 (kGuestProtRead ||| kGuestProtWrite)
    if placed = 0 then ⟨.error enomem, x⟩
    else
      let old := x.host.mem
      let x := x.store placed oldSize fun y => old (y - placed.toNat + oldAddress.toNat)
      let x := x.store (placed + oldSize) (newSize - oldSize) fun _ => 0
      let x := (x.release oldAddress oldSize).2
      ⟨.ok (x.toGuest placed), x⟩

/-- `DoBrk`. A break that grows is zeroed from where it was, by hand. -/
def doBrk (requested : UInt64) : SysOut :=
  let calls := x.process.syscalls
  if calls.heapBase = 0 then ⟨.ok 0, x⟩
  else if requested = 0 then ⟨.ok calls.heapBreak, x⟩
  else if requested < calls.heapBase ∨ requested > calls.heapLimit then ⟨.ok calls.heapBreak, x⟩
  else
    let x := if requested > calls.heapBreak
      then x.store (x.toHost calls.heapBreak) (requested - calls.heapBreak) fun _ => 0 else x
    ⟨.ok requested, { x with process := { x.process with
      syscalls := { x.process.syscalls with heapBreak := requested } } }⟩

end Sys

/-- The calls of `Dispatch` that change what memory a process has. -/
inductive MemoryCall where
  | mmap (r : MmapRequest)
  | munmap (address length : UInt64)
  | mprotect (address length : UInt64) (protection : UInt32)
  | mremap (address oldSize newSize flags : UInt64)
  | brk (requested : UInt64)

def MemoryCall.run (x : Sys) : MemoryCall → SysOut
  | .mmap r => x.doMmap r
  | .munmap address length => x.munmap address length
  | .mprotect address length protection => x.mprotect address length protection
  | .mremap address oldSize newSize flags => x.mremap address oldSize newSize flags
  | .brk requested => x.doBrk requested

end Fathom
