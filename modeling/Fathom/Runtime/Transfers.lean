import Fathom.Runtime.Descriptors
import Fathom.Runtime.Syscalls

/-!
# What calls take out of a guest's memory and put into it (`linux_syscalls.cpp`)

Strings, which have no length and are read a byte at a time; event counters, whose value is
theirs and whose pipe only says that there is one; and the reads of a descriptor, one buffer
or several.
-/

namespace Fathom

open Lib

/-- What `ReadGuestString` returns, what it leaves in `out`, and the bytes it has read. -/
structure StringRead where
  ok : Bool
  out : List UInt8
  reads : List UInt64

/-- The value and the flags of an eventfd, and how many bytes its pipe holds. -/
structure EventCounter where
  value : UInt64
  semaphore : Bool
  signalled : Bool
  pipe : Nat
  deriving DecidableEq

namespace EventCounter

def doEventfd (initial : UInt64) (semaphore : Bool) : EventCounter :=
  if initial ≠ 0 then ⟨initial, semaphore, true, 1⟩ else ⟨initial, semaphore, false, 0⟩

/-- `DoEventfdRead`: the value it gives, or `EAGAIN`. -/
def read (c : EventCounter) : Except Errno UInt64 × EventCounter :=
  if c.value = 0 then (.error ⟨11, by decide⟩, c)
  else
    let (out, c) :=
      if c.semaphore then ((1 : UInt64), { c with value := c.value - 1 })
      else (c.value, { c with value := 0 })
    if c.value = 0 ∧ c.signalled then (.ok out, { c with pipe := c.pipe - 1, signalled := false })
    else (.ok out, c)

/-- `DoEventfdWrite`. The sum is a machine word's. -/
def write (c : EventCounter) (v : UInt64) : Except Errno Unit × EventCounter :=
  if v = 0xFFFFFFFFFFFFFFFF then (.error ⟨22, by decide⟩, c)
  else
    let c := { c with value := c.value + v }
    if c.value ≠ 0 ∧ !c.signalled then (.ok (), { c with pipe := c.pipe + 1, signalled := true })
    else (.ok (), c)

end EventCounter

/-- What a descriptor has to give: the value of its counter or timer, and what its console or
its host file puts into a buffer of some length. -/
structure Source where
  value : Except Errno UInt64
  fill : UInt64 → Except Errno (List UInt8)
  short : ∀ n bytes, fill n = .ok bytes → bytes.length ≤ n.toNat

/-- The loop of `DoReadv` and `DoWritev` over the segments, with the total so far. -/
def vectored {S : Type} (one : UInt64 → UInt64 → S → Except Errno UInt64 × S) :
    List (UInt64 × UInt64) → UInt64 → S → Except Errno UInt64 × S
  | [], total, s => (.ok total, s)
  | (base, length) :: rest, total, s =>
    if length = 0 then vectored one rest total s
    else match one base length s with
      | (.error e, s) => (if total > 0 then .ok total else .error e, s)
      | (.ok n, s) => if n < length then (.ok (total + n), s) else vectored one rest (total + n) s

namespace Sys

variable (x : Sys)

/-- The loop of `ReadGuestString`, with the turns that are left: the bytes it reads, and the
string, if it comes to the end of one. -/
def stringFrom (x : Sys) (hostAddress : UInt64) : Nat → UInt64 → List UInt64 × Option (List UInt8)
  | 0, _ => ([], none)
  | left + 1, offset =>
    let byteAddress := hostAddress + offset
    if (offset = 0 ∨ byteAddress % kGuestPage = 0) ∧
        x.space.validate byteAddress 1 kGuestProtRead = false then ([], none)
    else
      let byte := x.host.mem byteAddress.toNat
      if byte = 0 then ([byteAddress], some [])
      else
        let (reads, value) := x.stringFrom hostAddress left (offset + 1)
        (byteAddress :: reads, value.map (byte :: ·))

def readGuestString (address : UInt64) (out : List UInt8) (limit : UInt64) : StringRead :=
  if address = 0 then ⟨false, out, []⟩
  else match x.stringFrom (x.toHost address) limit.toNat 0 with
    | (reads, some value) => ⟨true, value, reads⟩
    | (reads, none) => ⟨false, out, reads⟩

def storeBytes (address : UInt64) (bytes : List UInt8) : Sys :=
  { x with host := x.host.store address (UInt64.ofNat bytes.length) fun y =>
      bytes.getD (y - address.toNat) 0 }

/-- `DoEventfdRead` and `DoTimerfdRead`: eight bytes, whatever the caller's count is. -/
def doCounterRead (buffer : UInt64) (value : Except Errno UInt64) : Except Errno UInt64 × Sys :=
  match x.guestPointer false buffer 8 true, value with
  | none, _ => (.error ⟨14, by decide⟩, x)
  | some _, .error e => (.error e, x)
  | some out, .ok v =>
    (.ok 8, x.storeBytes out ((List.range 8).map fun k => (v >>> (8 * k.toUInt64)).toUInt8))

def doRead (file : Option LinuxSyscalls.OpenFile) (a : Source) (buffer count : UInt64) :
    Except Errno UInt64 × Sys :=
  match x.guestPointer false buffer count true with
  | none => (if count = 0 then .ok 0 else .error ⟨14, by decide⟩, x)
  | some data =>
    match file with
    | none => (.error ⟨9, by decide⟩, x)
    | some file =>
      if file.event.isSome then x.doCounterRead buffer a.value
      else if file.isTimer then x.doCounterRead buffer a.value
      else match a.fill count with
        | .error e => (.error e, x)
        | .ok bytes => (.ok (UInt64.ofNat bytes.length), x.storeBytes data bytes)

/-- `DoReadv`, of the segments that `ReadGuestIovec` has read. The `k`-th read is answered by
`answers k`. -/
def doReadv (file : Option LinuxSyscalls.OpenFile) (answers : Nat → Source)
    (vectors : List (UInt64 × UInt64)) : Except Errno UInt64 × Sys :=
  let out := vectored (fun base length (s : Sys × Nat) =>
    let (ret, x) := s.1.doRead file (answers s.2) base length
    (ret, x, s.2 + 1)) vectors 0 (x, 0)
  (out.1, out.2.1)

end Sys

/-! ## Descriptors in messages -/

def kGuestSolSocket : Nat := 1
def kScmRights : Nat := 1

/-- `guest_cmsg_header`: a length, a level and a type. -/
def guestCmsgHeader (narrow : Bool) : UInt64 := if narrow then 12 else 16

/-- A control buffer, by what is at each distance from its start. That goes on past its
end, as the memory does that it is in. -/
structure ControlBuffer where
  narrow : Bool
  bytes : Nat → UInt8
  length : UInt64

/-- What a walk has read, and the descriptors it has found. -/
structure Walked where
  reads : List (Nat × Nat)
  fds : List Int

def Walked.andThen (s rest : Walked) : Walked := ⟨s.reads ++ rest.reads, s.fds ++ rest.fds⟩

namespace ControlBuffer

variable (place : Nat) (b : ControlBuffer)

def header : UInt64 := guestCmsgHeader b.narrow

def width : UInt64 := if b.narrow then 4 else 8

def lengthAt : UInt64 := UInt64.ofNat (number b.bytes b.width.toNat place)

def isRights : Bool :=
  number b.bytes 4 (place + b.width.toNat) == kGuestSolSocket &&
    number b.bytes 4 (place + b.width.toNat + 4) == kScmRights

/-- An `int32_t`. -/
def fdAt : Int := (number b.bytes 4 place : Int).bmod (2 ^ 32)

def headAt : Walked :=
  ⟨[(place, b.width.toNat), (place + b.width.toNat, 4), (place + b.width.toNat + 4, 4)], []⟩

/-- The descriptors of an entry, if it is one that has some. -/
def rightsAt : Walked :=
  if b.isRights place then
    let count := (b.lengthAt place - b.header) / 4
    let places := (List.range count.toNat).map fun index => place + b.header.toNat + index * 4
    ⟨places.map fun p => (p, 4), places.map b.fdAt⟩
  else ⟨[], []⟩

/-- Where the next entry is looked for. -/
def next (cursor : UInt64) : UInt64 := cursor + maskUp b.width (b.lengthAt cursor.toNat)

/-- The loop over a guest's entries, from `cursor` on. -/
def walk : Nat → UInt64 → Option Walked
  | 0, _ => none
  | turns + 1, cursor =>
    if cursor + b.header ≤ b.length then
      let length := b.lengthAt cursor.toNat
      if length < b.header ∨ cursor + length > b.length then some (b.headAt cursor.toNat)
      else
        (walk turns (b.next cursor)).map fun rest =>
          (b.headAt cursor.toNat).andThen ((b.rightsAt cursor.toNat).andThen rest)
    else some ⟨[], []⟩

end ControlBuffer

/-- The buffer that is walked to send a message, if there is one. A system call is not
made in the host's signal handler. -/
def Sys.sendControl (x : Sys) (narrow : Bool) (controlAddress controlLength : UInt64) :
    Option ControlBuffer :=
  if controlAddress ≠ 0 ∧ controlLength ≥ guestCmsgHeader narrow then
    (x.guestPointer false controlAddress controlLength false).map fun control =>
      ⟨narrow, fun k => x.host.mem (control.toNat + k), controlLength⟩
  else none

/-! ## Receiving -/

/-- A control entry that comes with a message to the host: descriptors, or so many bytes of
another kind. -/
inductive HostEntry where
  | rights (fds : List HostDescriptor)
  | other (length : Nat)

/-- `CMSG_SPACE`: the host's header is 12 bytes, and what follows it is padded to 4. -/
def cmsgSpace (length : Nat) : Nat := 12 + roundUp 4 length

/-- The descriptors that come with a message. -/
def carried : List HostEntry → List HostDescriptor
  | [] => []
  | .rights fds :: rest => fds ++ carried rest
  | .other _ :: rest => carried rest

/-- Those of them that the host puts into a buffer of so many bytes. -/
def carriedIn : Nat → List HostEntry → List HostDescriptor
  | _, [] => []
  | room, .rights fds :: rest =>
    fds.take ((room - 12) / 4) ++ carriedIn (room - cmsgSpace (4 * fds.length)) rest
  | room, .other length :: rest => carriedIn (room - cmsgSpace length) rest

namespace Descriptors

def hostFdFor (d : Descriptors) (fd : Int) : Option HostDescriptor := (d.files.get fd).bind (·.host)

def registerArrivals (d : Descriptors) : List HostDescriptor → List Int × Descriptors
  | [] => ([], d)
  | host :: rest =>
    let (fd, d) := d.registerFile (some host) "socket:[fd]".toList false
    let (fds, d) := registerArrivals d rest
    (fd :: fds, d)

end Descriptors

/-- A received message: the numbers in the guest's control buffer, the length given for
it, and the table. -/
structure Received where
  written : List Int
  controlWritten : UInt64
  after : Descriptors

/-- A guest's buffer with no room for a header is not asked for. -/
def asksForControl (narrow : Bool) (controlAddress controlLength : UInt64) : Bool :=
  controlAddress != 0 && controlLength ≥ guestCmsgHeader narrow

/-- The descriptors that arrive, in a buffer with room for 64: none if the host was given no
buffer. -/
def arrivals (narrow : Bool) (controlAddress controlLength : UInt64)
    (entries : List HostEntry) : List HostDescriptor :=
  if asksForControl narrow controlAddress controlLength then
    carriedIn (cmsgSpace (4 * 64)) entries
  else []

def controlNeeded (narrow : Bool) (count : Nat) : UInt64 :=
  guestCmsgHeader narrow + UInt64.ofNat count * 4

def Sys.receiveControl (x : Sys) (d : Descriptors) (narrow : Bool)
    (controlAddress controlLength : UInt64) (entries : List HostEntry) : Received :=
  let (fds, d) := d.registerArrivals (arrivals narrow controlAddress controlLength entries)
  if fds = [] then ⟨[], 0, d⟩
  else
    let needed := controlNeeded narrow fds.length
    match x.guestPointer false controlAddress (wordMin needed controlLength) true with
    | none => ⟨[], 0, d⟩
    | some _ => if needed ≤ controlLength then ⟨fds, needed, d⟩ else ⟨[], 0, d⟩

end Fathom
