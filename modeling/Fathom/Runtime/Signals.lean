import Fathom.Runtime.Session

/-!
# Signals and the way out of a system call (`linux_syscalls.cpp`)

A queued signal is delivered when its thread leaves a system call, or in the middle of
compiled code by the host's signal handler.
-/

namespace Fathom

open Lib

/-! ## Registers -/

structure GuestCpuState where
  /-- `rax`, `rcx`, `rdx`, `rbx`, `rsp`, `rbp`, `rsi`, `rdi`, `r8` to `r15`. -/
  gregs : Fin 16 → UInt64
  rip : UInt64
  eflags : UInt32
  mxcsr : UInt32
  fsBase : UInt64
  gsBase : UInt64
  xmm : Fin 16 → UInt64 × UInt64
  /-- The upper halves of `ymm0` to `ymm15`. -/
  ymmHigh : Fin 16 → UInt64 × UInt64
  mm : Fin 8 → UInt64 × UInt64
  fcw : UInt16
  ftw : UInt8

def kRax : Fin 16 := 0
def kRcx : Fin 16 := 1
def kRdx : Fin 16 := 2
def kRbx : Fin 16 := 3
def kRsp : Fin 16 := 4
def kRbp : Fin 16 := 5
def kRsi : Fin 16 := 6
def kRdi : Fin 16 := 7

def GuestCpuState.set (state : GuestCpuState) (r : Fin 16) (value : UInt64) : GuestCpuState :=
  { state with gregs := fun i => if i = r then value else state.gregs i }

/-! ## Constants -/

def failLinux (errno : UInt64) : UInt64 := 0 - errno

def kErestartsys : UInt64 := 512
def kSigkill : Nat := 9
def kSigstop : Nat := 19
def kSigchld : Nat := 17
def kSigurg : Nat := 23
def kSigwinch : Nat := 28
def kSaOnstack : UInt64 := 0x08000000
def kSaRestart : UInt64 := 0x10000000
def kSaNodefer : UInt64 := 0x40000000
def kSaResethand : UInt64 := 0x80000000
def kSsDisable : UInt32 := 2
def kSiUser : UInt32 := 0
def kSiTkill : UInt32 := 0xFFFFFFFA

def signalBit (signal : Nat) : UInt64 := 1 <<< UInt64.ofNat (signal - 1)

/-! ## A thread -/

structure SignalAction where
  handler : UInt64
  flags : UInt64
  restorer : UInt64
  mask : UInt64
  deriving DecidableEq

def SignalAction.none : SignalAction := ⟨0, 0, 0, 0⟩

def SignalAction.handled (action : SignalAction) : Bool :=
  action.handler != 0 && action.handler != 1

structure GuestThread where
  sys : Sys
  attached : Bool
  cpu : GuestCpuState
  pid : UInt32
  pendingSignals : UInt64
  signalSenders : Nat → UInt32
  signalMask : UInt64
  signalActions : Nat → SignalAction
  altstackSp : UInt64
  altstackSize : UInt64
  altstackDisabled : Bool
  ripPlaced : Bool
  inHostHandler : Bool

namespace GuestThread

variable (t : GuestThread)

def narrow : Bool := t.sys.process.syscalls.guestIs32bit

def guestPointer (t : GuestThread) (address size : UInt64) (writable : Bool) : Option UInt64 :=
  t.sys.guestPointer t.inHostHandler address size writable

def withHost (host : Host) : GuestThread := { t with sys := { t.sys with host } }

def captureCpuState : Option GuestCpuState := if t.attached then some t.cpu else none

def restoredTo (restores : Bool) (state : GuestCpuState) : Option GuestThread :=
  if restores then
    some { t with cpu := { state with fsBase := t.cpu.fsBase, gsBase := t.cpu.gsBase } }
  else none

def restoreCpuState (state : GuestCpuState) : Option GuestThread := t.restoredTo t.attached state

def advanceGuestRip (bytes : UInt64) : GuestThread :=
  if t.attached then { t with cpu := { t.cpu with rip := t.cpu.rip + bytes } } else t

def ready : UInt64 := t.pendingSignals &&& ~~~t.signalMask

def signalPending : Bool := t.ready != 0

/-! ## TakePendingSignal -/

/-- What comes off the queue. A signal whose default is to die ends the process,
and does not come back. -/
inductive Taken where
  | nothing
  | handler (signal : Nat) (sender : UInt32) (action : SignalAction)
  | exits (status : Nat)

/-- A signal off the queue, and its action off the table if it was to be used
once. -/
def consume (signal : Nat) : GuestThread :=
  { t with
    pendingSignals := t.pendingSignals &&& ~~~signalBit signal
    signalActions := if (t.signalActions signal).flags &&& kSaResethand ≠ 0
      then fun i => if i = signal then SignalAction.none else t.signalActions i
      else t.signalActions }

def takeLoop : Nat → GuestThread → Taken × GuestThread
  | 0, t => (.nothing, t)
  | turns + 1, t =>
    if t.ready = 0 then (.nothing, t)
    else
      let signal := ctz t.ready + 1
      let sender := t.signalSenders signal
      let action := t.signalActions signal
      let t := t.consume signal
      if action.handled then (.handler signal sender action, t)
      else if action.handler = 0 ∧ signal ≠ kSigchld ∧ signal ≠ kSigurg ∧ signal ≠ kSigwinch
      then (.exits (128 + signal), t)
      -- Ignored: as if it never happened.
      else takeLoop turns t

def takePendingSignal : Taken × GuestThread := takeLoop 64 t

end GuestThread

variable (h : Host) (t : GuestThread) (base : UInt64) (state : GuestCpuState)

/-! ## The frame's parts -/

def Host.putFields (h : Host) (base : UInt64) : List Field → Host
  | [] => h
  | f :: rest =>
    let address := base + UInt64.ofNat f.offset
    (h.store address (UInt64.ofNat f.width) fun x =>
      byteOf f.value (x - address.toNat)).putFields base rest

def Host.field (offset width : Nat) : Nat := number h.mem width (base + UInt64.ofNat offset).toNat

def Host.field64 (offset : Nat) : UInt64 := .ofNat (h.field base offset 8)

def Host.field32 (offset : Nat) : UInt32 := .ofNat (h.field base offset 4)

def wideFields {n : Nat} (offset : Nat) (regs : Fin n → UInt64 × UInt64) : List Field :=
  (List.finRange n).flatMap fun i =>
    [⟨offset + i.val * 16, 8, (regs i).1.toNat⟩, ⟨offset + i.val * 16 + 8, 8, (regs i).2.toNat⟩]

def Host.wideRegs (offset n : Nat) : Fin n → UInt64 × UInt64 := fun i =>
  (h.field64 base (offset + i.val * 16), h.field64 base (offset + i.val * 16 + 8))

def fxsaveFields : List Field :=
  [⟨0, 2, state.fcw.toNat⟩, ⟨2, 2, 0⟩, ⟨4, 1, state.ftw.toNat⟩, ⟨24, 4, state.mxcsr.toNat⟩,
    ⟨28, 4, 0xffff⟩] ++ wideFields 32 state.mm ++ wideFields 160 state.xmm

def writeFxsave (out : UInt64) (state : GuestCpuState) : Host :=
  (h.store out 512 fun _ => 0).putFields out (fxsaveFields state)

def kXstateMagic1 : Nat := 0x46505853
def kXstateMagic2 : Nat := 0x46505845
def kXstateSize : UInt64 := 512 + 64 + 256
def kXstateFrameSize : UInt64 := kXstateSize + 4

def xstateFields : List Field :=
  [⟨464, 4, kXstateMagic1⟩, ⟨468, 4, kXstateFrameSize.toNat⟩, ⟨472, 8, 7⟩, ⟨480, 4,
    kXstateSize.toNat⟩, ⟨512, 8, 7⟩] ++ wideFields 576 state.ymmHigh ++ [⟨832, 4, kXstateMagic2⟩]

def writeXstate (out : UInt64) (state : GuestCpuState) : Host :=
  h.putFields out (xstateFields state)

def readXstate (state : GuestCpuState) : GuestCpuState :=
  let magic1 := h.field base 464 4
  let xstateBv := h.field64 base 512
  -- A plain FXSAVE frame leaves the upper halves as they are.
  if magic1 ≠ kXstateMagic1 then state
  else if xstateBv &&& 4 ≠ 0 then { state with ymmHigh := h.wideRegs base 576 16 }
  else { state with ymmHigh := fun _ => (0, 0) }

def readFxsave (state : GuestCpuState) : GuestCpuState :=
  { state with
    fcw := .ofNat (h.field base 0 2)
    ftw := .ofNat (h.field base 4 1)
    mxcsr := h.field32 base 24
    mm := h.wideRegs base 32 8
    xmm := h.wideRegs base 160 16 }

/-! ## PushSignalFrame -/

structure FramePlace where
  handlerSp : UInt64
  ucAddress : UInt64
  infoAddress : UInt64
  fpAddress : UInt64
  size : UInt64
  deriving DecidableEq

/-- The i386 frame: `pretcode`, `sig`, `pinfo`, `puc`, `siginfo`, `ucontext` and
`retcode`. -/
def kFrameSize : UInt64 := 4 + 4 + 4 + 4 + 128 + 116 + 8

def framePlace (narrow onAltstack : Bool) (sp : UInt64) : FramePlace :=
  if !narrow then
    -- Below the red zone of whatever was running.
    let sp := if !onAltstack then sp - 128 else sp
    let fpAddress := (sp - kXstateFrameSize) &&& ~~~63
    let handlerSp := ((fpAddress - (8 + 424 + 128)) &&& ~~~15) - 8
    let ucAddress := handlerSp + 8
    ⟨handlerSp, ucAddress, ucAddress + 424, fpAddress, fpAddress + kXstateFrameSize - handlerSp⟩
  else
    let handlerSp := ((sp - kFrameSize + 4) &&& ~~~15) - 4
    let infoAddress := handlerSp + 16
    ⟨handlerSp, infoAddress + 128, infoAddress, 0, kFrameSize⟩

def ucFields (action : SignalAction) (fpAddress : UInt64) : List Field :=
  let uc := 8
  let gregs := uc + 40
  [⟨0, 8, action.restorer.toNat⟩, ⟨uc, 8, 1⟩, ⟨uc + 16, 8, t.altstackSp.toNat⟩,
    ⟨uc + 24, 4, (if t.altstackDisabled then kSsDisable else 0).toNat⟩,
    ⟨uc + 32, 8, t.altstackSize.toNat⟩] ++
    (List.finRange 8).map (fun i => ⟨gregs + i.val * 8, 8, (state.gregs (i.natAdd 8)).toNat⟩) ++
    [⟨gregs + 8 * 8, 8, (state.gregs kRdi).toNat⟩, ⟨gregs + 9 * 8, 8, (state.gregs kRsi).toNat⟩,
      ⟨gregs + 10 * 8, 8, (state.gregs kRbp).toNat⟩, ⟨gregs + 11 * 8, 8, (state.gregs kRbx).toNat⟩,
      ⟨gregs + 12 * 8, 8, (state.gregs kRdx).toNat⟩, ⟨gregs + 13 * 8, 8, (state.gregs kRax).toNat⟩,
      ⟨gregs + 14 * 8, 8, (state.gregs kRcx).toNat⟩, ⟨gregs + 15 * 8, 8, (state.gregs kRsp).toNat⟩,
      ⟨gregs + 16 * 8, 8, state.rip.toNat⟩, ⟨gregs + 17 * 8, 8, state.eflags.toNat⟩,
      ⟨gregs + 18 * 8, 8, 0x33⟩, ⟨gregs + 21 * 8, 8, t.signalMask.toNat⟩,
      ⟨uc + 40 + 23 * 8, 8, fpAddress.toNat⟩, ⟨uc + 40 + 256, 8, t.signalMask.toNat⟩]

def signalCode (sender : UInt32) : UInt32 := if sender = t.pid then kSiTkill else kSiUser

def infoFields (signal : Nat) (sender : UInt32) : List Field :=
  [⟨0, 4, signal⟩, ⟨8, 4, (signalCode t sender).toNat⟩, ⟨16, 4, sender.toNat⟩]

def narrowHeadFields (signal : Nat) (sender : UInt32) (action : SignalAction) (place : FramePlace) :
    List Field :=
  [⟨0, 4, action.restorer.toNat⟩, ⟨4, 4, signal⟩, ⟨8, 4, place.infoAddress.toNat⟩,
    ⟨12, 4, place.ucAddress.toNat⟩,
    ⟨16 + 0, 4, signal⟩, ⟨16 + 8, 4, (signalCode t sender).toNat⟩, ⟨16 + 12, 4, sender.toNat⟩]

def narrowUcFields : List Field :=
  let sc := 20
  [⟨8, 4, t.altstackSp.toNat⟩, ⟨12, 4, (if t.altstackDisabled then kSsDisable else 0).toNat⟩, ⟨16,
    4, t.altstackSize.toNat⟩, ⟨sc + 0 * 4, 4, 0⟩, ⟨sc + 1 * 4, 4, 0⟩, ⟨sc + 2 * 4, 4, 0x2b⟩,
    ⟨sc + 3 * 4, 4, 0x2b⟩, ⟨sc + 4 * 4, 4, (state.gregs kRdi).toNat⟩, ⟨sc + 5 * 4, 4,
    (state.gregs kRsi).toNat⟩, ⟨sc + 6 * 4, 4, (state.gregs kRbp).toNat⟩, ⟨sc + 7 * 4, 4,
    (state.gregs kRsp).toNat⟩, ⟨sc + 8 * 4, 4, (state.gregs kRbx).toNat⟩, ⟨sc + 9 * 4, 4,
    (state.gregs kRdx).toNat⟩, ⟨sc + 10 * 4, 4, (state.gregs kRcx).toNat⟩, ⟨sc + 11 * 4, 4,
    (state.gregs kRax).toNat⟩, ⟨sc + 14 * 4, 4, state.rip.toNat⟩, ⟨sc + 15 * 4, 4, 0x23⟩,
    ⟨sc + 16 * 4, 4, state.eflags.toNat⟩, ⟨sc + 17 * 4, 4, (state.gregs kRsp).toNat⟩, ⟨sc + 18 * 4,
    4, 0x2b⟩, ⟨sc + 20 * 4, 4, t.signalMask.toNat⟩, ⟨108, 8, t.signalMask.toNat⟩]

namespace GuestThread

variable (t : GuestThread) (state : GuestCpuState)

def handlerStack (action : SignalAction) : UInt64 × Bool :=
  let sp := state.gregs kRsp
  if action.flags &&& kSaOnstack ≠ 0 ∧ t.altstackDisabled = false ∧ t.altstackSize ≠ 0 then
    let already := sp > t.altstackSp ∧ sp ≤ t.altstackSp + t.altstackSize
    (if already then sp else t.altstackSp + t.altstackSize, true)
  else (sp, false)

def placeFor (action : SignalAction) : FramePlace :=
  let (sp, onAltstack) := t.handlerStack state action
  framePlace t.narrow onAltstack sp

def writeFrame (signal : Nat) (sender : UInt32) (action : SignalAction) (place : FramePlace)
    (frame : UInt64) : Host :=
  let h := t.sys.host.store frame place.size fun _ => 0
  if !t.narrow then
    let fp := frame + (place.fpAddress - place.handlerSp)
    let h := h.putFields frame (ucFields t state action place.fpAddress)
    let h := writeXstate (writeFxsave h fp state) fp state
    h.putFields (frame + (place.infoAddress - place.handlerSp)) (infoFields t signal sender)
  else
    let h := h.putFields frame (narrowHeadFields t signal sender action place)
    h.putFields (frame + 16 + 128) (narrowUcFields t state)

def handlerRegisters (signal : Nat) (action : SignalAction) (place : FramePlace) : GuestCpuState :=
  let state := if !t.narrow then
      ((((state.set kRsp place.handlerSp).set kRdi (UInt64.ofNat signal)).set kRsi
        place.infoAddress).set kRdx place.ucAddress).set kRax 0
    else
      (((state.set kRsp place.handlerSp).set kRax (UInt64.ofNat signal)).set kRdx
        place.infoAddress).set kRcx place.ucAddress
  { state with eflags := state.eflags &&& ~~~0x400, rip := action.handler }

/-- `PushSignalFrame`: the registers to go on with, or nothing and all as it
was. -/
def pushSignalFrame (signal : Nat) (sender : UInt32) (action : SignalAction) :
    Option GuestCpuState × GuestThread :=
  let place := t.placeFor state action
  match t.guestPointer place.handlerSp place.size true with
  | none => (none, t)
  | some frame =>
    let host := t.writeFrame state signal sender action place frame
    let mask := t.signalMask ||| action.mask
    let mask := if action.flags &&& kSaNodefer = 0 then mask ||| signalBit signal else mask
    (some (t.handlerRegisters state signal action place),
      { t.withHost host with signalMask := mask })

/-! ## DoRtSigreturn -/

def readGregs (h : Host) (uc : UInt64) (state : GuestCpuState) : GuestCpuState :=
  let gregs := fun index => h.field64 uc (40 + index * 8)
  let state := (List.finRange 8).foldl (fun state i => state.set (i.natAdd 8) (gregs i.val)) state
  let state := (((((((state.set kRdi (gregs 8)).set kRsi (gregs 9)).set kRbp (gregs 10)).set kRbx
    (gregs 11)).set kRdx (gregs 12)).set kRax (gregs 13)).set kRcx (gregs 14)).set kRsp (gregs 15)
  { state with rip := gregs 16, eflags := (gregs 17).toUInt32 }

def readSc (h : Host) (uc : UInt64) (state : GuestCpuState) : GuestCpuState :=
  let sc := fun index => h.field32 uc (20 + index * 4)
  let state := (((((((state.set kRdi (sc 4).toUInt64).set kRsi (sc 5).toUInt64).set kRbp
    (sc 6).toUInt64).set kRsp (sc 7).toUInt64).set kRbx (sc 8).toUInt64).set kRdx
    (sc 9).toUInt64).set kRcx (sc 10).toUInt64).set kRax (sc 11).toUInt64
  { state with rip := (sc 14).toUInt64, eflags := sc 16 }

def readFpregs (fpAddress : UInt64) (state : GuestCpuState) : GuestCpuState :=
  if fpAddress = 0 then state
  else
    match t.guestPointer fpAddress 512 false with
    | none => state
    | some fx =>
      let state := readFxsave t.sys.host fx state
      match t.guestPointer fpAddress kXstateFrameSize false with
      | none => state
      | some xs => readXstate t.sys.host xs state

/-- The registers and the mask in the frame the stack pointer is just past the
return address of. -/
def readFrame : Option (GuestCpuState × UInt64) :=
  let h := t.sys.host
  if !t.narrow then
    match t.guestPointer (state.gregs kRsp) 424 false with
    | none => none
    | some uc =>
      let state := readGregs h uc state
      some (t.readFpregs (h.field64 uc (40 + 23 * 8)) state, h.field64 uc (40 + 256))
  else
    let frameAddress := state.gregs kRsp - 4
    match t.guestPointer (frameAddress + 16 + 128) 116 false with
    | none => none
    | some uc => some (readSc h uc state, h.field64 uc 108)

def doRtSigreturn : UInt64 × GuestThread :=
  match t.captureCpuState with
  | none => (failLinux 38, t)
  | some state =>
    match t.readFrame state with
    | none => (failLinux 14, t)
    | some (state, mask) =>
      let t := { t with
        signalMask := mask &&& ~~~(signalBit kSigkill ||| signalBit kSigstop) }
      match t.restoreCpuState state with
      | none => (failLinux 38, t)
      | some t => (state.gregs kRax, { t with ripPlaced := true })

/-! ## The way out -/

/-- How a system call ends: with a value for `rax`, or with the process. -/
inductive Exit where
  | returned (value : UInt64)
  | exited (status : Nat)
  deriving DecidableEq

/-- `DeliverSignal`, with what the engine says to capturing the registers and to putting them
back. -/
def deliverSignalWith (captures restores : Bool) (guestNumber result : UInt64) :
    Exit × GuestThread :=
  let interrupted := result = failLinux kErestartsys
  match t.takePendingSignal with
  | (.exits status, t) => (.exited status, t)
  | (.nothing, t) =>
    -- Nothing ran: the system call simply goes again.
    if interrupted then (.returned guestNumber, t.advanceGuestRip (0 - 2))
    else (.returned result, t)
  | (.handler signal sender action, t) =>
    let undelivered := if interrupted then failLinux 4 else result
    if !captures then (.returned undelivered, t)
    else
      let restart := interrupted ∧ action.flags &&& kSaRestart ≠ 0
      let savedRip := if restart then t.cpu.rip - 2 else t.cpu.rip
      let savedRax := if restart then guestNumber else undelivered
      match t.pushSignalFrame { t.cpu.set kRax savedRax with rip := savedRip } signal sender
          action with
      | (none, t) => (.returned undelivered, t)
      | (some state, t) =>
        match t.restoredTo restores state with
        | none => (.returned undelivered, t)
        | some t => (.returned (state.gregs kRax), { t with ripPlaced := true })

def finishSyscallWith (captures restores : Bool) (guestNumber result : UInt64) :
    Exit × GuestThread :=
  let t := if !t.ripPlaced then t.advanceGuestRip 2 else t
  if t.signalPending then t.deliverSignalWith captures restores guestNumber result
  else if result = failLinux kErestartsys then (.returned (failLinux 4), t)
  else (.returned result, t)

/-- An engine that is attached to the thread does both. -/
def finishSyscall (guestNumber result : UInt64) : Exit × GuestThread :=
  t.finishSyscallWith t.attached t.attached guestNumber result

def handle (number : UInt64) (inner : GuestThread → UInt64 × GuestThread) : Exit × GuestThread :=
  let (result, t) := inner { t with ripPlaced := false }
  t.finishSyscall number result

end GuestThread

/-! ## The system calls about signals, and what can happen to a thread's (`linux_syscalls.cpp`) -/

def kUnblockable : UInt64 := signalBit kSigkill ||| signalBit kSigstop

def actionFields (narrow : Bool) (action : SignalAction) : List Field :=
  if narrow then
    [⟨0, 4, action.handler.toNat⟩, ⟨4, 4, action.flags.toNat⟩, ⟨8, 4, action.restorer.toNat⟩,
      ⟨12, 8, action.mask.toNat⟩]
  else
    [⟨0, 8, action.handler.toNat⟩, ⟨8, 8, action.flags.toNat⟩, ⟨16, 8, action.restorer.toNat⟩,
      ⟨24, 8, action.mask.toNat⟩]

def readAction (narrow : Bool) (h : Host) (base : UInt64) : SignalAction :=
  if narrow then
    { handler := (h.field32 base 0).toUInt64
      flags := (h.field32 base 4).toUInt64
      restorer := (h.field32 base 8).toUInt64
      mask := h.field64 base 12 }
  else
    { handler := h.field64 base 0
      flags := h.field64 base 8
      restorer := h.field64 base 16
      mask := h.field64 base 24 }

def altstackFields (t : GuestThread) : List Field :=
  let flags := (if t.altstackDisabled then kSsDisable else 0).toNat
  if t.narrow then [⟨0, 4, t.altstackSp.toNat⟩, ⟨4, 4, flags⟩, ⟨8, 4, t.altstackSize.toNat⟩]
  else [⟨0, 8, t.altstackSp.toNat⟩, ⟨8, 4, flags⟩, ⟨16, 8, t.altstackSize.toNat⟩]

namespace GuestThread

variable (t : GuestThread)

/-- What a call answers through a pointer it was given, if it was given one. -/
def answer (address size : UInt64) (fields : List Field) : Option GuestThread :=
  if address ≠ 0 then
    match t.guestPointer address size true with
    | none => none
    | some out => some (t.withHost ((t.sys.host.store out size fun _ => 0).putFields out fields))
  else some t

def setAction (signal : Nat) (action : SignalAction) : GuestThread :=
  { t with signalActions := fun i => if i = signal then action else t.signalActions i }

def doRtSigaction (signal : Int) (actAddress oldAddress : UInt64) : UInt64 × GuestThread :=
  if signal ≤ 0 ∨ signal > 64 then (failLinux 22, t)
  else
    let size := if t.narrow then 20 else 32
    match t.answer oldAddress size (actionFields t.narrow (t.signalActions signal.toNat)) with
    | none => (failLinux 14, t)
    | some t =>
      if actAddress ≠ 0 then
        if signal.toNat = kSigkill ∨ signal.toNat = kSigstop then (failLinux 22, t)
        else
          match t.guestPointer actAddress size false with
          | none => (failLinux 14, t)
          | some act => (0, t.setAction signal.toNat (readAction t.narrow t.sys.host act))
      else (0, t)

def doRtSigprocmask (how : Int) (setAddress oldAddress : UInt64) : UInt64 × GuestThread :=
  match t.answer oldAddress 8 [⟨0, 8, t.signalMask.toNat⟩] with
  | none => (failLinux 14, t)
  | some t =>
    if setAddress ≠ 0 then
      match t.guestPointer setAddress 8 false with
      | none => (failLinux 14, t)
      | some address =>
        let set := t.sys.host.field64 address 0
        let mask : Option UInt64 :=
          if how = 0 then some (t.signalMask ||| set)
          else if how = 1 then some (t.signalMask &&& ~~~set)
          else if how = 2 then some set
          else none
        match mask with
        | none => (failLinux 22, t)
        | some mask => (0, { t with signalMask := mask &&& ~~~kUnblockable })
    else (0, t)

def setAltstack (sp : UInt64) (flags : UInt32) (stackSize : UInt64) : UInt64 × GuestThread :=
  if flags &&& kSsDisable ≠ 0 then
    (0, { t with altstackDisabled := true, altstackSp := 0, altstackSize := 0 })
  else if stackSize < 2048 then (failLinux 12, t)
  else (0, { t with altstackDisabled := false, altstackSp := sp, altstackSize := stackSize })

def doSigaltstack (newAddress oldAddress : UInt64) : UInt64 × GuestThread :=
  let size := if t.narrow then 12 else 24
  match t.answer oldAddress size (altstackFields t) with
  | none => (failLinux 14, t)
  | some t =>
    if newAddress ≠ 0 then
      match t.guestPointer newAddress size false with
      | none => (failLinux 14, t)
      | some address =>
        let h := t.sys.host
        if t.narrow then
          t.setAltstack (h.field32 address 0).toUInt64 (h.field32 address 4)
            (h.field32 address 8).toUInt64
        else t.setAltstack (h.field64 address 0) (h.field32 address 8) (h.field64 address 16)
    else (0, t)

def queueSignal (signal : Int) (sender : UInt32) : GuestThread :=
  if signal ≤ 0 ∨ signal > 64 then t
  else
    { t with
      signalSenders := fun i => if i = signal.toNat then sender else t.signalSenders i
      pendingSignals := t.pendingSignals ||| signalBit signal.toNat }

/-! ## Delivery -/

/-- `HandleGuestSignalNudge`, for a thread in compiled code. Whether the engine
took the registers is not looked at. -/
def nudge (captures restores : Bool) : Option Nat × GuestThread :=
  if !t.signalPending || !captures then (none, t)
  else
    match { t with inHostHandler := true }.takePendingSignal with
    | (.exits status, t) => (some status, t)
    | (.nothing, t) => (none, { t with inHostHandler := false })
    | (.handler signal sender action, t) =>
      match t.pushSignalFrame t.cpu signal sender action with
      | (none, t) => (none, { t with inHostHandler := false })
      | (some state, t) =>
        let t := { t with inHostHandler := false }
        (none, (t.restoredTo restores state).getD t)

end GuestThread

/-! ## What can happen -/

inductive SignalEvent where
  | sigaction (signal : Int) (actAddress oldAddress : UInt64)
  | sigprocmask (how : Int) (setAddress oldAddress : UInt64)
  | sigaltstack (newAddress oldAddress : UInt64)
  | sigreturn
  | queue (signal : Int) (sender : UInt32)
  | leave (captures restores : Bool) (guestNumber result : UInt64)
  | nudge (captures restores : Bool)
  /-- The guest runs, and whatever else its process does. -/
  | elsewhere (sys : Sys) (cpu : GuestCpuState) (attached ripPlaced : Bool)

def GuestThread.Exit.status : GuestThread.Exit → Option Nat
  | .exited status => some status
  | .returned _ => none

/-- The thread after an event, and the status of the process if it ended there. -/
def GuestThread.step (t : GuestThread) : SignalEvent → Option Nat × GuestThread
  | .sigaction signal actAddress oldAddress =>
    (none, (t.doRtSigaction signal actAddress oldAddress).2)
  | .sigprocmask how setAddress oldAddress =>
    (none, (t.doRtSigprocmask how setAddress oldAddress).2)
  | .sigaltstack newAddress oldAddress => (none, (t.doSigaltstack newAddress oldAddress).2)
  | .sigreturn => (none, t.doRtSigreturn.2)
  | .queue signal sender => (none, t.queueSignal signal sender)
  | .leave captures restores guestNumber result =>
    let out := t.finishSyscallWith captures restores guestNumber result
    (out.1.status, out.2)
  | .nudge captures restores => t.nudge captures restores
  | .elsewhere sys cpu attached ripPlaced => (none, { t with sys, cpu, attached, ripPlaced })

/-! ## What signals a child and an exec inherit (`fathom_runtime.cpp`) -/

structure ProcessSignals where
  actions : Nat → SignalAction
  mask : UInt64
  threads : Nat → Option UInt64

def withAction (actions : Nat → SignalAction) (signal : Int) (action : SignalAction) :
    Nat → SignalAction :=
  if signal ≤ 0 ∨ signal > 64 then actions
  else if signal.toNat = kSigkill ∨ signal.toNat = kSigstop then actions
  else fun i => if i = signal.toNat then action else actions i

def withMask (mask : UInt64) (how : Int) (set : UInt64) : UInt64 :=
  if how = 0 then (mask ||| set) &&& ~~~kUnblockable
  else if how = 1 then (mask &&& ~~~set) &&& ~~~kUnblockable
  else if how = 2 then set &&& ~~~kUnblockable
  else mask

namespace ProcessSignals

variable (p : ProcessSignals)

def new : ProcessSignals := ⟨fun _ => .none, 0, fun _ => none⟩

def cloneInto (_parent child : ProcessSignals) : ProcessSignals := child

def shareInto (tid : Nat) : ProcessSignals :=
  { p with threads := fun other => if other = tid then some new.mask else p.threads other }

def adoptImage : ProcessSignals := p

def stopAndJoinOtherThreads : ProcessSignals := { p with threads := fun _ => none }

def maskOf (pid tid : Nat) : Option UInt64 := if tid = pid then some p.mask else p.threads tid

def setMask (pid tid : Nat) (mask : UInt64) : ProcessSignals :=
  if tid = pid then { p with mask }
  else { p with threads := fun other => if other = tid then some mask else p.threads other }

end ProcessSignals

/-- The processes, with `next_pid`, which threads are numbered from as well. -/
structure SessionSignals where
  process : Nat → Option ProcessSignals
  nextPid : Nat
  fresh : ∀ pid, nextPid ≤ pid → process pid = none

inductive SignalStep where
  | sigaction (pid tid : Nat) (signal : Int) (action : SignalAction)
  | sigprocmask (pid tid : Nat) (how : Int) (set : UInt64)
  | fork (pid tid : Nat)
  | createThread (pid tid : Nat)
  | exec (pid tid : Nat)

namespace SessionSignals

variable (s : SessionSignals)

def takePid : SessionSignals :=
  { s with
    nextPid := s.nextPid + 1
    fresh := fun pid h => s.fresh pid (Nat.le_of_succ_le h) }

def set (pid : Nat) (p : ProcessSignals) : SessionSignals where
  process other := if other = pid then some p else s.process other
  nextPid := max s.nextPid (pid + 1)
  fresh other h := by
    rw [if_neg (by omega)]
    exact s.fresh other (by omega)

/-- The process a thread is one of, with the thread's mask. -/
def caller (pid tid : Nat) : Option (ProcessSignals × UInt64) :=
  (s.process pid).bind fun p => (p.maskOf pid tid).map fun mask => (p, mask)

def step : SignalStep → SessionSignals
  | .sigaction pid tid signal action =>
    match s.caller pid tid with
    | none => s
    | some (p, _) => s.set pid { p with actions := withAction p.actions signal action }
  | .sigprocmask pid tid how newSet =>
    match s.caller pid tid with
    | none => s
    | some (p, mask) => s.set pid (p.setMask pid tid (withMask mask how newSet))
  | .fork pid tid =>
    match s.caller pid tid with
    | none => s
    | some (p, _) => s.takePid.set s.nextPid (p.cloneInto .new)
  | .createThread pid tid =>
    match s.caller pid tid with
    | none => s
    | some (p, _) => s.takePid.set pid (p.shareInto s.nextPid)
  | .exec pid tid =>
    match s.caller pid tid with
    | none => s
    | some (p, _) => s.set pid p.stopAndJoinOtherThreads.adoptImage

end SessionSignals

/-! ## Waiting for children (`fathom_runtime.cpp`, `linux_syscalls.cpp`) -/

def kWNoHang : UInt32 := 1

structure WaitAnswer where
  ret : Int
  exitStatus : Option Int
  deriving DecidableEq

namespace FathomSession

def waitFor (s : FathomSession) (callerPid : Nat) (wantedPid : Int) (options : UInt32) :
    Option WaitAnswer × FathomSession :=
  let look := s.waitForChild callerPid wantedPid
  if look.1 > 0 then (some ⟨look.1, (s.find look.1.toNat).map ProcessRecord.exitStatus⟩, look.2)
  else if look.1 < 0 then (some ⟨look.1, none⟩, look.2)
  else if options &&& kWNoHang ≠ 0 then (some ⟨0, none⟩, look.2)
  else (none, look.2)

end FathomSession

def intOfRegister (value : UInt64) : Int := value.toUInt32.toInt32.toInt

/-- A system call's turn: its return value, if it has come to one, with the
session and the caller's memory. -/
structure WaitOut where
  ret : Option UInt64
  session : FathomSession
  sys : Sys

def exitWord (status : Int) : Nat := (status % 256).toNat * 256

def doWait4 (s : FathomSession) (x : Sys) (pid : Nat) (arg1 arg2 arg3 : UInt64) : WaitOut :=
  match s.waitFor pid (intOfRegister arg1) arg3.toUInt32 with
  | (none, s) => ⟨none, s, x⟩
  | (some answer, s) =>
    let status := answer.exitStatus.getD 0
    let x :=
      if answer.ret > 0 ∧ arg2 ≠ 0 then
        match x.guestPointer false arg2 4 true with
        | none => x
        | some out => { x with host := x.host.putFields out [⟨0, 4, exitWord status⟩] }
      else x
    ⟨some (UInt64.ofInt answer.ret), s, x⟩

def kPAll : UInt64 := 0
def kPPid : UInt64 := 1

/-- Where `si_pid`, `si_uid` and `si_status` begin: an i386 guest has no padding
before them. -/
def siginfoFields (is32bit : Bool) : Nat := if is32bit then 12 else 16

def childInfo (is32bit : Bool) (reaped : Int) (status : Int) : List Field :=
  let fields := siginfoFields is32bit
  [⟨0, 4, kSigchld⟩, ⟨8, 4, 1⟩, ⟨fields, 4, (reaped % 2 ^ 32).toNat⟩, ⟨fields + 4, 4, 1000⟩,
    ⟨fields + 8, 4, (status / 256 % 256).toNat⟩]

def doWaitid (s : FathomSession) (x : Sys) (pid : Nat) (arg1 arg2 arg3 arg4 : UInt64) : WaitOut :=
  if arg1 ≠ kPAll ∧ arg1 ≠ kPPid then ⟨some (failLinux 22), s, x⟩
  else
    let wanted := if arg1 = kPAll then -1 else intOfRegister arg2
    let options := if arg4.toUInt32 &&& kWNoHang ≠ 0 then kWNoHang else 0
    match s.waitFor pid wanted options with
    | (none, s) => ⟨none, s, x⟩
    | (some answer, s) =>
      if answer.ret < 0 then ⟨some (UInt64.ofInt answer.ret), s, x⟩
      else if arg3 ≠ 0 then
        match x.guestPointer false arg3 128 true with
        | none => ⟨some (failLinux 14), s, x⟩
        | some out =>
          let host := (x.host.store out 128 fun _ => 0).putFields out
            (childInfo x.process.syscalls.guestIs32bit answer.ret (answer.exitStatus.getD 0))
          ⟨some 0, s, { x with host }⟩
      else ⟨some 0, s, x⟩

end Fathom
