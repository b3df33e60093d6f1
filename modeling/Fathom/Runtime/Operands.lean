/-!
# Operands packed into words (`linux_syscalls.cpp`, `guest_syscalls32.cpp`)

The operation word of `FUTEX_WAKE_OP`, the 64-bit offsets an i386 guest passes in two
registers, and its times of either width.
-/

namespace Fathom

/-- The operations on a futex word, and none for another code. -/
def futexOp (code : Nat) (previous operand : BitVec 32) : Option (BitVec 32) :=
  match code with
  | 0 => some operand
  | 1 => some (previous + operand)
  | 2 => some (previous ||| operand)
  | 3 => some (previous &&& ~~~operand)
  | 4 => some (previous ^^^ operand)
  | _ => none

def futexCompare (code : Nat) (previous against : Int) : Option Bool :=
  match code with
  | 0 => some (previous = against)
  | 1 => some (previous ≠ against)
  | 2 => some (previous < against)
  | 3 => some (previous ≤ against)
  | 4 => some (previous > against)
  | 5 => some (previous ≥ against)
  | _ => none

/-- The fields of the operation word: the operation, whether its operand is a shift, the
comparison, and the two arguments of 12 bits. -/
structure WakeOp where
  code : BitVec 3
  shift : Bool
  comparison : BitVec 4
  operand : BitVec 12
  against : BitVec 12

def WakeOp.decode (encoded : BitVec 32) : WakeOp :=
  ⟨encoded.extractLsb' 28 3, encoded.getLsbD 31, encoded.extractLsb' 24 4,
    encoded.extractLsb' 12 12, encoded.extractLsb' 0 12⟩

namespace WakeOp

/-- The operand, given what its 12 bits are extended to. -/
def word (o : WakeOp) (operand : BitVec 32) : BitVec 32 :=
  if o.shift then 1#32 <<< (o.operand &&& 31#12) else operand

/-- `kFutexWakeOp`: the second word, and whether those who wait on it are woken. The first
futex's always are. -/
def wakeOp (o : WakeOp) (previous : BitVec 32) : BitVec 32 × Option Bool :=
  ((futexOp o.code.toNat previous (o.word (o.operand.setWidth 32))).getD previous,
    some ((futexCompare o.comparison.toNat previous.toNat o.against.toNat).getD false))

/-- What Linux makes of it: the arguments are signed, and so is the comparison. `none` is
`ENOSYS`, with nobody woken. -/
def kernelWakeOp (o : WakeOp) (previous : BitVec 32) : BitVec 32 × Option Bool :=
  match futexOp o.code.toNat previous (o.word (o.operand.signExtend 32)) with
  | none => (previous, none)
  | some stored => (stored, futexCompare o.comparison.toNat previous.toInt o.against.toInt)

end WakeOp

/-! ## Offsets in two registers -/

/-- The calls that take a 64-bit offset; a transfer is `pread64` or `pwrite64`. -/
inductive FileCall where
  | transfer (reads : Bool)
  | ftruncate
  | fallocate

/-- Their entries in `X86_64SyscallForI386`. The registers go on as they are. -/
def fileCallForI386 : Nat → Option FileCall
  | 180 => some (.transfer true)
  | 181 => some (.transfer false)
  | 194 => some .ftruncate
  | 324 => some .fallocate
  | _ => none

/-- What a handler asks of the host, or returns without it. -/
inductive FileRequest where
  | returns (value : Nat)
  | fails (error : Nat)
  | transfer (reads : Bool) (hostFd : Int) (data count offset : BitVec 64)
  | ftruncate (hostFd : Int) (length : BitVec 64)
  deriving DecidableEq

/-- What the handlers look up: whether a range is the guest's, its files and their sizes. -/
structure FileLookup where
  guestPointer : BitVec 64 → BitVec 64 → (write : Bool) → Bool
  findFile : BitVec 64 → Option Int
  fstat : Int → Except Nat (BitVec 64)

def FileLookup.dispatch (w : FileLookup) (call : FileCall) (arg1 arg2 arg3 arg4 : BitVec 64) :
    FileRequest :=
  match call, w.findFile arg1 with
  | .transfer reads, file =>
    if w.guestPointer arg2 arg3 reads then
      match file with
      | none => .fails 9
      | some hostFd => .transfer reads hostFd arg2 arg3 arg4
    else if arg3 = 0 then .returns 0 else .fails 14
  | _, none => .fails 9
  | .ftruncate, some hostFd => .ftruncate hostFd arg2
  | .fallocate, some hostFd =>
    match w.fstat hostFd with
    | .error e => .fails e
    | .ok size =>
      let wantedEnd := arg3 + arg4
      if arg2 &&& 1 = 0 ∧ size < wantedEnd then .ftruncate hostFd wantedEnd else .returns 0

/-- The offset `DoLlseek` hands to the host. -/
def llseekOffset (high low : BitVec 32) : BitVec 64 :=
  (high.signExtend 64 <<< 32) ||| low.setWidth 64

/-! ## Times -/

def isI386NarrowTime (number : Nat) : Bool :=
  number ∈ [78, 79, 142, 162, 168, 264, 265, 266, 267, 240, 271, 308, 309, 320]

/-- The sixteen bytes a time may take, as words. -/
structure TimeWords where
  (w0 w1 w2 w3 : BitVec 32)

/-- Two fields, copied into zeroed ones. -/
def readGuestTimespec (narrow : Bool) (raw : TimeWords) : BitVec 64 × BitVec 64 :=
  if narrow then (raw.w0.setWidth 64, raw.w1.setWidth 64)
  else (raw.w1 ++ raw.w0, raw.w3 ++ raw.w2)

def writeGuestTimespec (narrow : Bool) (raw : TimeWords) (seconds nanoseconds : BitVec 64) :
    TimeWords :=
  if narrow then { raw with w0 := seconds.setWidth 32, w1 := nanoseconds.setWidth 32 }
  else ⟨seconds.setWidth 32, seconds.extractLsb' 32 32, nanoseconds.setWidth 32,
    nanoseconds.extractLsb' 32 32⟩

/-- The i386 numbers whose handlers read a time: `nanosleep`, `clock_nanosleep`, `pselect6`,
`ppoll`, `futex` and `timerfd_settime`, and the `_time64` ones of those that have one. -/
def timeCalls : List Nat := [162, 267, 407, 308, 413, 309, 414, 240, 422, 325]

/-- The time the handler takes. `futex` and `timerfd_settime` go by the guest alone. -/
def timeOf (number : Nat) (raw : TimeWords) : Option (BitVec 64 × BitVec 64) :=
  if number ∈ timeCalls then
    some (readGuestTimespec (number ∈ [240, 422, 325] || isI386NarrowTime number) raw)
  else none

end Fathom
