import Fathom.Proofs.SignalFrame

/-!
# How a system call goes on

An interrupted system call is made again when no handler ran, or one that asked for it,
and otherwise answers `EINTR`. An `rt_sigreturn` goes on where the frame says, with what
the frame says in `rax`.
-/

namespace Fathom

open Lib GuestAddressSpace

namespace GuestThread

/-! ## Taking signals off the queue -/

theorem toNat_signalBit {i : Nat} (hi : i < 64) : (signalBit (i + 1)).toNat = 2 ^ i := by
  have hof : (UInt64.ofNat i).toNat % 64 = i := by
    have hword : i < 2 ^ 64 := by omega
    rw [UInt64.toNat_ofNat_of_lt' hword]
    exact Nat.mod_eq_of_lt hi
  rw [signalBit, Nat.add_sub_cancel, UInt64.toNat_shiftLeft, hof, UInt64.toNat_one,
    Nat.one_shiftLeft]
  exact Nat.mod_eq_of_lt (Nat.pow_lt_pow_right (by decide) hi)

theorem testBit_and_not (a b : UInt64) {i : Nat} (hi : i < 64) :
    (a &&& ~~~b).toNat.testBit i = (a.toNat.testBit i && !b.toNat.testBit i) := by
  have hnot : (~~~b).toNat.testBit i = !b.toNat.testBit i := by
    change (~~~b.toBitVec).getLsbD i = !b.toBitVec.getLsbD i
    simp [hi]
  rw [UInt64.toNat_and, Nat.testBit_and, hnot]

theorem ready_consume (t : GuestThread) {i j : Nat} (hi : i < 64) (hj : j < 64) :
    (t.consume (i + 1)).ready.toNat.testBit j = (t.ready.toNat.testBit j && j != i) := by
  change (t.pendingSignals &&& ~~~signalBit (i + 1) &&& ~~~t.signalMask).toNat.testBit j = _
  rw [testBit_and_not _ _ hj, testBit_and_not _ _ hj, ready, testBit_and_not _ _ hj,
    toNat_signalBit hi, Nat.testBit_two_pow]
  have hbne : (j != i) = !decide (i = j) := by simp [bne, eq_comm, beq_eq_decide]
  rw [hbne]
  cases t.pendingSignals.toNat.testBit j <;> cases t.signalMask.toNat.testBit j <;> simp

theorem takeLoop_nothing {turns : Nat} {t t' : GuestThread}
    (hlow : ∀ i < 64 - turns, t.ready.toNat.testBit i = false)
    (h : takeLoop turns t = (.nothing, t')) : t'.ready = 0 := by
  induction turns generalizing t with
  | zero =>
    cases h
    rw [← UInt64.toNat_inj, UInt64.toNat_zero]
    refine Nat.eq_of_testBit_eq fun i => ?_
    rw [Nat.zero_testBit]
    rcases Nat.lt_or_ge i 64 with hi | hi
    · exact hlow i hi
    · exact Nat.testBit_lt_two_pow
        (Nat.lt_of_lt_of_le (toNat_lt_word _) (Nat.pow_le_pow_right (by decide) hi))
  | succ turns ih =>
    simp only [takeLoop] at h
    split at h
    next hzero =>
      cases h
      exact hzero
    next hne =>
      obtain ⟨hbit, hlt, hbelow⟩ := ctz_spec hne
      split at h
      · cases h
      split at h
      · cases h
      refine ih (fun j hj => ?_) h
      have hge : 64 - (turns + 1) ≤ ctz t.ready := by
        by_contra hcon
        have hclear := hlow (ctz t.ready) (by omega)
        rw [hbit] at hclear
        cases hclear
      rw [ready_consume t hlt (by omega)]
      rcases Nat.lt_trichotomy j (ctz t.ready) with hj' | hj' | hj'
      · rw [hbelow j hj', Bool.false_and]
      · simp [hj']
      · omega

theorem takePendingSignal_nothing {t t' : GuestThread}
    (h : t.takePendingSignal = (.nothing, t')) : t'.signalPending = false := by
  have hzero : t'.ready = 0 := takeLoop_nothing (fun i hi => absurd hi (by omega)) h
  rw [signalPending, hzero]
  rfl

theorem takeLoop_keeps (turns : Nat) (t : GuestThread) : (takeLoop turns t).2 = { t with
        pendingSignals := (takeLoop turns t).2.pendingSignals
        signalActions := (takeLoop turns t).2.signalActions } := by
  induction turns generalizing t with
  | zero => rfl
  | succ _ ih =>
    simp only [takeLoop]
    split
    · rfl
    split
    · rfl
    split
    · rfl
    · rw [ih]
      rfl

theorem takePendingSignal_keeps (t : GuestThread) : t.takePendingSignal.2.sys = t.sys ∧
    t.takePendingSignal.2.cpu = t.cpu ∧ t.takePendingSignal.2.attached = t.attached ∧
    t.takePendingSignal.2.inHostHandler = t.inHostHandler := by
  have hkeep := takeLoop_keeps 64 t
  rw [takePendingSignal, hkeep]
  exact ⟨rfl, rfl, rfl, rfl⟩

/-! ## What is seen from outside -/

/-- The handler a thread enters on its way out: of a signal that has one, and
that a frame can be pushed for. -/
def handlerRun (t : GuestThread) : Option SignalAction :=
  if t.signalPending then
    match t.takePendingSignal with
    | (.handler _ _ action, t') =>
      let place := t'.placeFor t'.cpu action
      if (t'.guestPointer place.handlerSp place.size true).isSome then some action else none
    | _ => none
  else none

def frameSize (narrow : Bool) : UInt64 := if narrow then kFrameSize else 1404

theorem placeFor_size (t : GuestThread) (state : GuestCpuState) (action : SignalAction) :
    (t.placeFor state action).size = frameSize t.narrow := by
  cases hn : t.narrow with
  | false => exact (placeFor_wide hn state action).2.2.2.1
  | true => exact (placeFor_narrow hn state action).2.2

/-- The code that made the system call goes on at `rip` with `rax`: at once, or
when the handler that was entered first has come to its `rt_sigreturn` with the
frame as it was. -/
def GoesOn (narrow : Bool) (ran : Option SignalAction) (out : Exit × GuestThread)
    (rip rax : UInt64) : Prop :=
  match out.1, ran with
  | .exited _, _ => True
  | .returned value, none =>
    cut narrow out.2.cpu.rip = cut narrow rip ∧ cut narrow value = cut narrow rax
  | .returned _, some _ =>
    ∀ t, AtSigreturn out.2 (out.2.cpu.gregs kRsp) (frameSize narrow) t →
      t.doRtSigreturn.2.cpu.rip = cut narrow rip ∧ t.doRtSigreturn.1 = cut narrow rax

/-- The restart protocol, for a system call at `t.cpu.rip` that answered
`result`. One that was interrupted is made again when no handler ran, or one
with `SA_RESTART`. -/
def RestartProtocol (t : GuestThread) (number result : UInt64) : Prop :=
  let ran := (t.advanceGuestRip 2).handlerRun
  let interrupted := result = failLinux kErestartsys
  let again := interrupted ∧ ran.all (·.flags &&& kSaRestart != 0) = true
  GoesOn t.narrow ran (t.finishSyscall number result) (if again then t.cpu.rip else t.cpu.rip + 2)
    (if again then number else if interrupted then failLinux 4 else result)

/-! ## The ways out -/

variable {t t₁ : GuestThread} {saved handler : GuestCpuState} {signal : Nat} {sender : UInt32}
  {action : SignalAction}

def WillReturn (t : GuestThread) (narrow : Bool) (rip rax : UInt64) : Prop :=
  (∀ t', AtSigreturn t (t.cpu.gregs kRsp) (frameSize narrow) t' →
    t'.doRtSigreturn.2.cpu.rip = cut narrow rip ∧ t'.doRtSigreturn.1 = cut narrow rax) ∧
    ∃ t', AtSigreturn t (t.cpu.gregs kRsp) (frameSize narrow) t'

theorem willReturn_of_push (hs : t.sys.space.ListInv) (hnum : t.sys.Numbered)
    (hin : t.inHostHandler = false) (hat : t.attached = true)
    (hpush : t.pushSignalFrame saved signal sender action = (some handler, t₁)) : WillReturn
      { t₁ with
        cpu := { handler with fsBase := t₁.cpu.fsBase, gsBase := t₁.cpu.gsBase }
        ripPlaced := true }
      t.narrow saved.rip (saved.gregs kRax) := by
  have hsp : handler.gregs kRsp = (t.placeFor saved action).handlerSp := by
    rw [(pushSignalFrame_some hpush).1]
    exact handlerRegisters_rsp t saved signal action _
  have hsize := placeFor_size t saved action
  have hback := atSigreturn_returned hs hnum hin hat hpush handler
  rw [← hsp, hsize] at hback
  refine ⟨fun t' h' => ?_, _, ⟨hback.attached, hback.narrow, hback.guestBase, hback.inv,
    hback.numbered, hback.mapped, hback.kept, hback.rsp⟩⟩
  have hframe : AtSigreturn t₁ (t.placeFor saved action).handlerSp
      (t.placeFor saved action).size t' := by
    rw [← hsp, hsize]
    exact ⟨h'.attached, h'.narrow, h'.guestBase, h'.inv, h'.numbered, h'.mapped, h'.kept, h'.rsp⟩
  obtain ⟨_, hread, hcut⟩ := hframe.readFrame hpush
  rw [doRtSigreturn_eq h'.attached hread]
  exact ⟨hcut.rip, hcut.gregs kRax fun _ => by decide⟩

/-- How `FinishSyscall` can end, from where the instruction pointer has been
moved on or not. `lost` is the way out for an interrupted call that is neither
made again nor interrupted by a handler. -/
inductive Leaves (t : GuestThread) (number result : UInt64) :
    Option SignalAction → Exit × GuestThread → Prop
  | exits {status : Nat} {t' : GuestThread} (hpending : t.signalPending = true)
      (htake : t.takePendingSignal = (.exits status, t')) :
      Leaves t number result none (.exited status, t')
  | again {t' : GuestThread} (hint : result = failLinux kErestartsys) (hpending : t.signalPending =
      true) {taken : GuestThread} (htake : t.takePendingSignal = (.nothing, taken))
      (hrip : t'.cpu.rip = t.cpu.rip - 2) : Leaves t number result none (.returned number, t')
  | plain {t' : GuestThread} (hint : result ≠ failLinux kErestartsys)
      (hrip : t'.cpu.rip = t.cpu.rip) (hexits : t.signalPending = true →
        ∀ status taken, t.takePendingSignal ≠ (.exits status, taken)) :
      Leaves t number result none (.returned result, t')
  | lost {t' : GuestThread} (hint : result = failLinux kErestartsys) (hrip : t'.cpu.rip = t.cpu.rip)
      (hwhy : t.signalPending = true → ∃ signal sender action taken,
        t.takePendingSignal = (.handler signal sender action, taken)) :
      Leaves t number result none (.returned (failLinux 4), t')
  | handler {action : SignalAction} {value : UInt64} {t' : GuestThread}
      (hback : WillReturn t' t.narrow
        (if result = failLinux kErestartsys ∧ action.flags &&& kSaRestart ≠ 0
          then t.cpu.rip - 2 else t.cpu.rip)
        (if result = failLinux kErestartsys ∧ action.flags &&& kSaRestart ≠ 0 then number
          else if result = failLinux kErestartsys then failLinux 4 else result))
      (hexits : ∀ status taken, t.takePendingSignal ≠ (.exits status, taken)) :
      Leaves t number result (some action) (.returned value, t')

/-- Everything after the instruction pointer has been moved. -/
def leave (t : GuestThread) (number result : UInt64) : Exit × GuestThread :=
  if t.signalPending then t.deliverSignalWith t.attached t.attached number result
  else if result = failLinux kErestartsys then (.returned (failLinux 4), t)
  else (.returned result, t)

theorem leaves_undelivered {t' : GuestThread} (number : UInt64) {result : UInt64}
    (hrip : t'.cpu.rip = t.cpu.rip) {taken : GuestThread}
    (htake : t.takePendingSignal = (.handler signal sender action, taken)) :
    Leaves t number result none
      (.returned (if result = failLinux kErestartsys then failLinux 4 else result), t') := by
  by_cases hint : result = failLinux kErestartsys
  · rw [if_pos hint]
    exact .lost hint hrip fun _ => ⟨_, _, _, _, htake⟩
  · rw [if_neg hint]
    refine .plain hint hrip fun _ status taken h => ?_
    rw [htake] at h
    cases h

theorem pushSignalFrame_fst (t : GuestThread) (state : GuestCpuState) (signal : Nat)
    (sender : UInt32) (action : SignalAction) :
    (t.pushSignalFrame state signal sender action).1.isSome =
      (t.guestPointer (t.placeFor state action).handlerSp (t.placeFor state action).size
        true).isSome := by
  rw [pushSignalFrame]
  split
  next h => rw [h]; rfl
  next h => rw [h]; rfl

theorem pushSignalFrame_none
    (hpush : t.pushSignalFrame saved signal sender action = (none, t₁)) : t₁ = t := by
  rw [pushSignalFrame] at hpush
  split at hpush
  · cases hpush
    rfl
  · cases hpush

theorem leaves_leave (hs : t.sys.space.ListInv) (hnum : t.sys.Numbered)
    (hin : t.inHostHandler = false) (hat : t.attached = true) (number result : UInt64) :
    Leaves t number result t.handlerRun (t.leave number result) := by
  by_cases hp : t.signalPending = true
  case neg =>
    simp only [leave, handlerRun, hp, if_false, Bool.false_eq_true]
    split
    next hint => exact .lost hint rfl fun h => absurd h hp
    next hint => exact .plain hint rfl fun h => absurd h hp
  obtain ⟨hsys, hcpu, hatt, hhost⟩ := takePendingSignal_keeps t
  rcases htake : t.takePendingSignal with ⟨taken, t'⟩
  rw [htake] at hsys hcpu hatt hhost
  simp only [leave, handlerRun, deliverSignalWith, hat, hp, if_true, htake]
  cases taken with
  | nothing =>
    dsimp only
    split
    next hint =>
      refine .again hint hp htake ?_
      rw [advanceGuestRip, hatt, hat, hcpu]
      exact (UInt64.sub_eq_add_neg _ _).symm
    next hint =>
      refine .plain hint (by rw [hcpu]) fun _ status taken h => ?_
      rw [htake] at h
      cases h
  | exits _ => exact .exits hp htake
  | handler signal sender action =>
    simp only [Bool.not_true, Bool.false_eq_true, if_false]
    generalize hsaved : ({ t'.cpu.set kRax _ with rip := _ } : GuestCpuState) = saved
    have hplace : t'.placeFor saved action = t'.placeFor t'.cpu action := by
      rw [← hsaved]
      rfl
    have hfst := pushSignalFrame_fst t' saved signal sender action
    rw [hplace] at hfst
    rcases hpush : t'.pushSignalFrame saved signal sender action with ⟨pushed, t₁⟩
    rw [hpush] at hfst
    cases pushed with
    | none =>
      rw [← hfst]
      exact leaves_undelivered number (by rw [pushSignalFrame_none hpush, hcpu]) htake
    | some handler =>
      rw [← hfst]
      have hnarrow : t'.narrow = t.narrow := by rw [narrow, narrow, hsys]
      have hback := willReturn_of_push (by rw [hsys]; exact hs) (by rw [hsys]; exact hnum)
        (by rw [hhost, hin]) (by rw [hatt, hat]) hpush
      rw [hnarrow] at hback
      simp only [restoredTo, if_true]
      refine .handler ?_ fun status taken h => ?_
      · rw [← hsaved] at hback
        rw [← hcpu]
        exact hback
      · rw [htake] at h
        cases h

/-! ## The protocol -/

theorem finishSyscall_eq (t : GuestThread) (number result : UInt64) :
    t.finishSyscall number result =
      (if t.ripPlaced then t else t.advanceGuestRip 2).leave number result := by
  have hatt : (t.advanceGuestRip 2).attached = t.attached := by
    rw [advanceGuestRip]
    split
    · rfl
    · rfl
  rw [finishSyscall, finishSyscallWith]
  cases t.ripPlaced with
  | false => simp [leave, hatt]
  | true => rfl

theorem cut_ne_sub_two (narrow : Bool) (v : UInt64) : cut narrow (v - 2) ≠ cut narrow v := by
  intro h
  have hnat := congrArg UInt64.toNat h
  cases narrow with
  | false =>
    change (v - 2).toNat = v.toNat at hnat
    rw [UInt64.toNat_sub, show (2 : UInt64).toNat = 2 from rfl] at hnat
    omega
  | true =>
    change (v - 2).toUInt32.toUInt64.toNat = v.toUInt32.toUInt64.toNat at hnat
    rw [UInt32.toNat_toUInt64, UInt32.toNat_toUInt64, UInt64.toNat_toUInt32,
      UInt64.toNat_toUInt32, UInt64.toNat_sub, show (2 : UInt64).toNat = 2 from rfl] at hnat
    omega

theorem cut_eintr (narrow : Bool) :
    cut narrow (failLinux 4) ≠ cut narrow (failLinux kErestartsys) := by
  cases narrow with
  | false => decide
  | true => decide

/-- An interrupted call is delivered to a handler, or the signals that
interrupted it turn out to have none. -/
def Settled (t : GuestThread) : Prop :=
  t.handlerRun.isSome = true ∨ (t.signalPending = true ∧
    ∀ signal sender action taken, t.takePendingSignal ≠ (.handler signal sender action, taken))

def Ends (t : GuestThread) : Prop :=
  t.signalPending = true ∧ ∃ status taken, t.takePendingSignal = (.exits status, taken)

section Protocol

variable {number result : UInt64} {ran : Option SignalAction} {out : Exit × GuestThread}

theorem Leaves.protocol_iff {rip : UInt64} (hl : Leaves t number result ran out)
    (hrun : t.handlerRun = ran) (hrip : t.cpu.rip = rip + 2) :
    let again := result = failLinux kErestartsys ∧ ran.all (·.flags &&& kSaRestart != 0) = true
    GoesOn t.narrow ran out (if again then rip else rip + 2)
        (if again then number else if result = failLinux kErestartsys then failLinux 4
          else result) ↔
      (result = failLinux kErestartsys → t.Settled) := by
  intro again
  have hback : t.cpu.rip - 2 = rip := by rw [hrip, UInt64.add_sub_cancel]
  cases hl with
  | exits hpending htake =>
    refine iff_of_true trivial fun _ => .inr ⟨hpending, fun _ _ _ _ h => ?_⟩
    rw [htake] at h
    cases h
  | again hint hpending htake hrip' =>
    refine iff_of_true ?_ fun _ => .inr ⟨hpending, fun _ _ _ _ h => ?_⟩
    · rw [if_pos ⟨hint, rfl⟩, if_pos ⟨hint, rfl⟩]
      exact ⟨by rw [hrip', hback], rfl⟩
    · rw [htake] at h
      cases h
  | plain hint hrip' _ =>
    refine iff_of_true ?_ fun h => absurd h hint
    rw [if_neg fun h => hint h.1, if_neg fun h => hint h.1, if_neg hint]
    exact ⟨by rw [hrip', hrip], rfl⟩
  | lost hint hrip' hwhy =>
    refine iff_of_false (fun hgo => ?_) fun hsettled => ?_
    · rw [if_pos ⟨hint, rfl⟩] at hgo
      have hsame := hgo.1
      rw [hrip', ← hback] at hsame
      exact cut_ne_sub_two _ _ hsame.symm
    · rcases hsettled hint with hsome | ⟨hpending, hnone⟩
      · rw [hrun] at hsome
        cases hsome
      · obtain ⟨_, _, _, _, htake⟩ := hwhy hpending
        exact hnone _ _ _ _ htake
  | @handler action _ t' hwill _ =>
    refine iff_of_true ?_ fun _ => .inl (by rw [hrun]; rfl)
    have hagain : again ↔ result = failLinux kErestartsys ∧ action.flags &&& kSaRestart ≠ 0 :=
      and_congr_right fun _ => bne_iff_ne
    intro t₂ h₂
    have hto := hwill.1 t₂ h₂
    rw [hback, hrip] at hto
    simp only [hagain]
    exact hto

theorem Leaves.resumes_iff (hl : Leaves t number result ran out) :
    GoesOn t.narrow ran out t.cpu.rip result ↔ (result ≠ failLinux kErestartsys ∨ t.Ends) := by
  cases hl with
  | exits hpending htake => exact iff_of_true trivial (.inr ⟨hpending, _, _, htake⟩)
  | again hint _ htake hrip =>
    refine iff_of_false (fun hgo => ?_) ?_
    · have hsame := hgo.1
      rw [hrip] at hsame
      exact cut_ne_sub_two _ _ hsame
    · rintro (hne | ⟨_, _, _, h⟩)
      · exact hne hint
      · rw [htake] at h
        cases h
  | plain hint hrip _ => exact iff_of_true ⟨by rw [hrip], rfl⟩ (.inl hint)
  | lost hint _ hwhy =>
    refine iff_of_false (fun hgo => ?_) ?_
    · have hsame := hgo.2
      rw [hint] at hsame
      exact cut_eintr _ hsame
    · rintro (hne | ⟨hpending, _, _, h⟩)
      · exact hne hint
      · obtain ⟨_, _, _, _, htake⟩ := hwhy hpending
        rw [htake] at h
        cases h
  | @handler action _ t' hwill hexits =>
    by_cases hint : result = failLinux kErestartsys
    · refine iff_of_false (fun hgo => ?_) ?_
      · obtain ⟨t₂, h₂⟩ := hwill.2
        obtain ⟨hrip, hrax⟩ := hgo t₂ h₂
        obtain ⟨hrip', hrax'⟩ := hwill.1 t₂ h₂
        rw [hrip] at hrip'
        rw [hrax] at hrax'
        by_cases hflag : action.flags &&& kSaRestart ≠ 0
        · rw [if_pos ⟨hint, hflag⟩] at hrip'
          exact cut_ne_sub_two _ _ hrip'.symm
        · rw [if_neg fun h => hflag h.2, hint] at hrax'
          exact cut_eintr _ hrax'.symm
      · rintro (hne | ⟨_, _, _, h⟩)
        · exact hne hint
        · exact hexits _ _ h
    · refine iff_of_true ?_ (.inl hint)
      intro t₂ h₂
      have hto := hwill.1 t₂ h₂
      rw [if_neg fun h => hint h.1, if_neg fun h => hint h.1, if_neg hint] at hto
      exact hto

/-- The thread an `rt_sigreturn` leaves, before it goes on. -/
def resumed (t : GuestThread) (saved : GuestCpuState) (mask : UInt64) : GuestThread :=
  { t with
    signalMask := mask &&& ~~~(signalBit kSigkill ||| signalBit kSigstop)
    cpu := { saved with fsBase := t.cpu.fsBase, gsBase := t.cpu.gsBase }
    ripPlaced := true }

theorem readFrame_placed (t : GuestThread) (placed : Bool) (state : GuestCpuState) :
    ({ t with ripPlaced := placed } : GuestThread).readFrame state = t.readFrame state := by
  simp only [readFrame, readFpregs, guestPointer]
  rfl

theorem advanceGuestRip_keeps (hat : t.attached = true) (n : UInt64) : (t.advanceGuestRip n).sys =
    t.sys ∧ (t.advanceGuestRip n).attached = true ∧ (t.advanceGuestRip n).inHostHandler =
    t.inHostHandler ∧ (t.advanceGuestRip n).cpu.rip = t.cpu.rip + n := by
  rw [advanceGuestRip, if_pos hat]
  exact ⟨rfl, hat, rfl, rfl⟩

/-- The way out keeps the restart protocol exactly when an interrupted call is
settled, and resumes what an `rt_sigreturn` interrupted exactly when the saved
`rax` is not the number an interrupted call answers with, or the process ends. -/
theorem syscallExit_iff (hs : t.sys.space.ListInv) (hnum : t.sys.Numbered)
    (hin : t.inHostHandler = false) (hat : t.attached = true) :
    (t.ripPlaced = false → ∀ number result, t.RestartProtocol number result ↔
      (result = failLinux kErestartsys → (t.advanceGuestRip 2).Settled)) ∧
    (∀ number saved mask, t.readFrame t.cpu = some (saved, mask) →
      (GoesOn t.narrow (t.resumed saved mask).handlerRun (t.handle number doRtSigreturn)
          saved.rip (saved.gregs kRax) ↔
        (saved.gregs kRax ≠ failLinux kErestartsys ∨ (t.resumed saved mask).Ends))) := by
  constructor
  · intro hplaced number result
    obtain ⟨hsys, hat', hhost, hrip⟩ := advanceGuestRip_keeps hat 2
    have hl := leaves_leave (by rw [hsys]; exact hs) (by rw [hsys]; exact hnum)
      (by rw [hhost, hin]) hat' number result
    have hnarrow : (t.advanceGuestRip 2).narrow = t.narrow := by rw [narrow, narrow, hsys]
    have hiff := hl.protocol_iff rfl hrip
    rw [hnarrow] at hiff
    rw [RestartProtocol, finishSyscall_eq, hplaced]
    exact hiff
  · intro number saved mask hread
    have hback : ({ t with ripPlaced := false }).doRtSigreturn =
        (saved.gregs kRax, t.resumed saved mask) := by
      rw [← readFrame_placed t false] at hread
      exact doRtSigreturn_eq (t := { t with ripPlaced := false }) hat hread
    have hl := leaves_leave (t := t.resumed saved mask) hs hnum hin hat number (saved.gregs kRax)
    simp only [handle, hback]
    exact hl.resumes_iff

end Protocol

/-- Just past the return address of a frame that has `rax` in it, with a child's
death queued that nobody asked to hear of. -/
def returning (rax : UInt64) : GuestThread :=
  { running with
    sys := { running.sys with
      host := running.sys.host.putFields 0x100012000
        [⟨40 + 13 * 8, 8, rax.toNat⟩, ⟨40 + 16 * 8, 8, 0x100010040⟩] }
    cpu := midway.set kRsp 0x100012000
    pendingSignals := signalBit kSigchld }

theorem sigreturn_goes_back :
    let t := returning (failLinux kErestartsys)
    let out := t.handle 15 doRtSigreturn
    (t.readFrame t.cpu).map (fun saved => (saved.1.rip, saved.1.gregs kRax)) =
        some (0x100010040, failLinux kErestartsys) ∧
      out.1 = .returned 15 ∧ out.2.cpu.rip = 0x10001003e := by
  refine ⟨by decide, by decide, by decide⟩

theorem syscallExit_iff_returning : (returning 5).RestartProtocol 0 (failLinux kErestartsys) ∧
      ∃ saved mask, (returning 5).readFrame (returning 5).cpu = some (saved, mask) ∧
        GoesOn false ((returning 5).resumed saved mask).handlerRun
          ((returning 5).handle 15 doRtSigreturn) saved.rip (saved.gregs kRax) := by
  obtain ⟨hordinary, hback⟩ := syscallExit_iff (t := returning 5) listInv_running
    numbered_running rfl rfl
  constructor
  · refine (hordinary rfl 0 _).mpr fun _ => .inr ⟨by decide, fun _ _ _ _ h => ?_⟩
    have hnone : ((returning 5).advanceGuestRip 2).takePendingSignal.1 = .nothing := rfl
    rw [h] at hnone
    cases hnone
  · have hrax : ((returning 5).readFrame (returning 5).cpu).map (fun saved => saved.1.gregs kRax) =
        some 5 := by decide
    cases hread : (returning 5).readFrame (returning 5).cpu with
    | none =>
      rw [hread] at hrax
      cases hrax
    | some found =>
      rw [hread] at hrax
      refine ⟨found.1, found.2, rfl, (hback 15 found.1 found.2 hread).mpr (.inl ?_)⟩
      have hfive : found.1.gregs kRax = 5 := Option.some.inj hrax
      rw [hfive]
      decide

end GuestThread

end Fathom
