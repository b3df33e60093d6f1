import Fathom.Runtime.Signals
import Fathom.Lib.Table

/-!
# Shared memory (`linux_syscalls.cpp`)

A System V segment is a range of an arena, and the table of the segments is one for the
whole program: of each it keeps the guest address, how often it was attached and whether
it was marked to be removed. Which arena the range is of is not kept.
-/

namespace Fathom

open Lib

structure Stretch where
  space : SpacePtr
  address : UInt64
  size : UInt64
  deriving DecidableEq

def FathomSession.releaseStretch (s : FathomSession) (x : Stretch) : FathomSession :=
  match s.spaceAt x.space with
  | none => s
  | some space =>
    let out := space.release s.host x.address x.size
    s.setSpace x.space out.space out.host

structure SharedSegment where
  key : Int
  guestAddress : UInt64
  size : UInt64
  attachments : Nat
  removed : Bool
  deriving DecidableEq

structure SharedMemory where
  session : FathomSession
  segments : Table SharedSegment
  nextId : Int

structure ShmOut where
  ret : UInt64
  allocated : Option (Int × Stretch)
  released : Option (Int × Stretch)
  after : SharedMemory

def kIpcPrivate : Int := 0
def kIpcCreat : UInt32 := 0x200
def kIpcExcl : UInt32 := 0x400

namespace SharedMemory

variable (p : ProcessRecord) (m : SharedMemory)

def answer (ret : UInt64) : ShmOut := ⟨ret, none, none, m⟩

def withKey (key : Int) : Option (Int × SharedSegment) :=
  if key = kIpcPrivate then none
  else (m.segments.firstWhere fun g => g.key == key && !g.removed).bind fun id =>
    (m.segments.get id).map fun g => (id, g)

def newSegment (key : Int) (size : UInt64) : ShmOut :=
  match m.session.spaceAt p.space with
  | none => m.answer (failLinux 12)
  | some space =>
    let out := space.allocate m.session.host size 0 (kGuestProtRead ||| kGuestProtWrite)
    if out.ret = 0 then
      { m with session := m.session.setSpace p.space out.space out.host }.answer (failLinux 12)
    else
      let host := out.host.store out.ret size fun _ => 0
      { ret := UInt64.ofInt m.nextId
        allocated := some (m.nextId, ⟨p.space, out.ret, size⟩)
        released := none
        after :=
          { session := m.session.setSpace p.space out.space host
            segments := m.segments.put m.nextId ⟨key, p.syscalls.toGuest out.ret, size, 0, false⟩
            nextId := m.nextId + 1 } }

def doShmget (key : Int) (size : UInt64) (flags : UInt32) : ShmOut :=
  match m.withKey key with
  | some (id, g) =>
    if flags &&& kIpcCreat ≠ 0 ∧ flags &&& kIpcExcl ≠ 0 then m.answer (failLinux 17)
    else if size ≠ 0 ∧ g.size < size then m.answer (failLinux 22)
    else m.answer (UInt64.ofInt id)
  | none =>
    if key ≠ kIpcPrivate ∧ flags &&& kIpcCreat = 0 then m.answer (failLinux 2)
    else if size = 0 then m.answer (failLinux 22)
    else m.newSegment p key size

def doShmat (id : Int) : ShmOut :=
  match m.segments.get id with
  | none => m.answer (failLinux 22)
  | some g =>
    { m with segments := m.segments.put id { g with attachments := g.attachments + 1 } }.answer
      g.guestAddress

def stretchOf (g : SharedSegment) : Stretch := ⟨p.space, p.syscalls.toHost g.guestAddress, g.size⟩

def freeSegment (id : Int) (g : SharedSegment) : ShmOut :=
  { ret := 0
    allocated := none
    released := some (id, stretchOf p g)
    after :=
      { m with
        session := m.session.releaseStretch (stretchOf p g)
        segments := m.segments.drop id } }

def atAddress (address : UInt64) : Option (Int × SharedSegment) :=
  (m.segments.firstWhere fun g => g.guestAddress == address).bind fun id =>
    (m.segments.get id).map fun g => (id, g)

def doShmdt (address : UInt64) : ShmOut :=
  match m.atAddress address with
  | none => m.answer (failLinux 22)
  | some (id, g) =>
    if g.removed ∧ g.attachments - 1 = 0 then m.freeSegment p id g
    else
      { m with segments := m.segments.put id { g with attachments := g.attachments - 1 } }.answer 0

def doShmctlRmid (id : Int) : ShmOut :=
  match m.segments.get id with
  | none => m.answer (failLinux 22)
  | some g =>
    if g.attachments = 0 then m.freeSegment p id g
    else { m with segments := m.segments.put id { g with removed := true } }.answer 0

def caller (pid : Nat) : Option ProcessRecord := (m.session.find pid).filter fun p => !p.finished

end SharedMemory

inductive ShmEvent where
  | shmget (pid : Nat) (key : Int) (size : UInt64) (flags : UInt32)
  | shmat (pid : Nat) (id : Int)
  | shmdt (pid : Nat) (address : UInt64)
  | rmid (pid : Nat) (id : Int)
  | process (e : ProcessEvent)

end Fathom
