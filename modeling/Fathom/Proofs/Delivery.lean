import Fathom.Proofs.Restart

/-!
# What becomes of a signal

A signal comes off the queue before anything is known about where it can go. `TakesFrom`
says once what taking does: which signals are gone, and what each of them was: ignored,
the one a handler is to be entered for, or the one the process ends of.
-/

namespace Fathom

open Lib GuestAddressSpace

namespace GuestThread

variable {t₀ : GuestThread} {out : Taken} (restores : Bool) {t₁ t t' : GuestThread} {s : Nat}

/-! ## Bits -/

theorem or_and_word (a b m : UInt64) : (a ||| b) &&& m = a &&& m ||| b &&& m := by
  rw [← UInt64.toNat_inj]
  refine Nat.eq_of_testBit_eq fun i => ?_
  simp [Bool.and_or_distrib_right]

theorem and_not_and_word (a m : UInt64) : a &&& ~~~m &&& m = 0 := by
  rw [UInt64.and_assoc]
  simp

def Queued (t : GuestThread) (s : Nat) : Prop :=
  0 < s ∧ t.pendingSignals.toNat.testBit (s - 1) = true

theorem Queued.le (h : t.Queued s) : s ≤ 64 := by
  by_contra hcon
  have hbig : t.pendingSignals.toNat.testBit (s - 1) = false := Nat.testBit_lt_two_pow
    (Nat.lt_of_lt_of_le (toNat_lt_word _) (Nat.pow_le_pow_right (by decide) (by omega)))
  exact nomatch hbig.symm.trans h.2

variable {i : Nat}

theorem queued_or_signalBit (hi : i < 64) (v : UInt64) (hs : 0 < s) :
    (v ||| signalBit (i + 1)).toNat.testBit (s - 1) = true ↔
    v.toNat.testBit (s - 1) = true ∨ s = i + 1 := by
  rw [UInt64.toNat_or, Nat.testBit_or, toNat_signalBit hi, Nat.testBit_two_pow, Bool.or_eq_true,
    decide_eq_true_iff]
  exact or_congr Iff.rfl (by omega)

theorem queued_consume (hi : i < 64) : (t.consume (i + 1)).Queued s ↔ t.Queued s ∧ s ≠ i + 1 := by
  by_cases hs : 0 < s ∧ s ≤ 64
  · have hbit := testBit_and_not t.pendingSignals (signalBit (i + 1)) (i := s - 1) (by omega)
    rw [toNat_signalBit hi, Nat.testBit_two_pow] at hbit
    simp only [Queued, consume, hbit, Bool.and_eq_true, Bool.not_eq_true', decide_eq_false_iff_not,
      and_assoc]
    exact and_congr Iff.rfl (and_congr Iff.rfl (by omega))
  · refine iff_of_false (fun h => hs ⟨h.1, h.le⟩) fun h => hs ⟨h.1.1, h.1.le⟩

/-! ## Taking -/

def Ignores (action : SignalAction) (s : Nat) : Prop :=
  action.handled = false ∧ ¬ (action.handler = 0 ∧ s ≠ kSigchld ∧ s ≠ kSigurg ∧ s ≠ kSigwinch)

structure TakesFrom (t : GuestThread) (out : Taken) (t' : GuestThread) : Prop where
  fewer : ∀ s, t'.Queued s → t.Queued s
  gone : ∀ s, t.Queued s → ¬ t'.Queued s → Ignores (t.signalActions s) s ∨
    (∃ sender, out = .handler s sender (t.signalActions s)) ∨ out = .exits (128 + s)
  taken : ∀ s sender action, out = .handler s sender action →
    t.Queued s ∧ ¬ t'.Queued s ∧ action = t.signalActions s ∧ action.handled = true
  table : ∀ s, t'.signalActions s = t.signalActions s ∨ t'.signalActions s = SignalAction.none

theorem consume_table (t : GuestThread) (s j : Nat) : (t.consume s).signalActions j =
    t.signalActions j ∨ (t.consume s).signalActions j = SignalAction.none := by
  rw [consume]
  split
  · by_cases hj : j = s
    · exact .inr (if_pos hj)
    · exact .inl (if_neg hj)
  · exact .inl rfl

theorem consume_table_of_ne {j : Nat} (hj : j ≠ s) :
    (t.consume s).signalActions j = t.signalActions j := by
  rw [consume]
  split
  · exact if_neg hj
  · rfl

theorem takesFrom_consume (hi : i < 64) (hq : t.Queued (i + 1))
    (hgone : (∃ sender, out = .handler (i + 1) sender (t.signalActions (i + 1))) ∨
      out = .exits (128 + (i + 1))) (hhandled : ∀ s sender action, out = .handler s sender action →
      s = i + 1 ∧ action = t.signalActions s ∧ action.handled = true) :
    TakesFrom t out (t.consume (i + 1)) := by
  refine ⟨fun s h => ((queued_consume hi).mp h).1, fun s hs hno => ?_, fun s sender action h => ?_,
    consume_table t (i + 1)⟩
  · have heq : s = i + 1 := by
      by_contra hne
      exact hno ((queued_consume hi).mpr ⟨hs, hne⟩)
    rw [heq]
    exact .inr hgone
  · obtain ⟨rfl, haction, hh⟩ := hhandled s sender action h
    exact ⟨hq, fun h => ((queued_consume hi).mp h).2 rfl, haction, hh⟩

theorem TakesFrom.after_ignored (hi : i < 64) (hign : Ignores (t.signalActions (i + 1)) (i + 1))
    (h : TakesFrom (t.consume (i + 1)) out t') : TakesFrom t out t' := by
  have hkeep : ∀ s, (t.consume (i + 1)).Queued s →
      (t.consume (i + 1)).signalActions s = t.signalActions s := fun s hs =>
    consume_table_of_ne ((queued_consume hi).mp hs).2
  refine ⟨fun s hs => ((queued_consume hi).mp (h.fewer s hs)).1, fun s hs hno => ?_,
    fun s sender action hout => ?_, fun s => ?_⟩
  · by_cases heq : s = i + 1
    · rw [heq]
      exact .inl hign
    · have hleft := (queued_consume hi).mpr ⟨hs, heq⟩
      have hgone := h.gone s hleft hno
      rw [hkeep s hleft] at hgone
      exact hgone
  · obtain ⟨hq, hno, haction, hh⟩ := h.taken s sender action hout
    exact ⟨((queued_consume hi).mp hq).1, hno, haction.trans (hkeep s hq), hh⟩
  · rcases h.table s with heq | heq
    · rw [heq]
      exact consume_table t (i + 1) s
    · exact .inr heq

theorem queued_of_ready (hi : i < 64) (h : t.ready.toNat.testBit i = true) : t.Queued (i + 1) := by
  rw [ready, testBit_and_not _ _ hi, Bool.and_eq_true] at h
  exact ⟨Nat.succ_pos i, h.1⟩

theorem takeLoop_takesFrom (turns : Nat) (t : GuestThread) :
    TakesFrom t (takeLoop turns t).1 (takeLoop turns t).2 := by
  have hsame : ∀ t, TakesFrom t .nothing t := fun t =>
    ⟨fun _ => id, fun s hs hno => absurd hs hno, by simp, fun _ => .inl rfl⟩
  induction turns generalizing t with
  | zero => exact hsame t
  | succ _ ih =>
    simp only [takeLoop]
    split
    · exact hsame t
    next hne =>
      obtain ⟨hbit, hlt, -⟩ := ctz_spec hne
      have hq := queued_of_ready hlt hbit
      split
      next hhandled =>
        refine takesFrom_consume hlt hq (.inl ⟨_, rfl⟩) fun s sender action h => ?_
        cases h
        exact ⟨rfl, rfl, hhandled⟩
      next hhandled =>
        split
        next => exact takesFrom_consume hlt hq (.inr rfl) (by simp)
        next hfatal => exact (ih _).after_ignored hlt ⟨Bool.eq_false_iff.mpr hhandled, hfatal⟩

theorem takePendingSignal_takesFrom (t : GuestThread) :
    TakesFrom t t.takePendingSignal.1 t.takePendingSignal.2 := takeLoop_takesFrom 64 t

/-! ## Delivering -/

structure SameSignals (t t' : GuestThread) : Prop where
  pending : t'.pendingSignals = t.pendingSignals
  mask : t'.signalMask = t.signalMask
  actions : t'.signalActions = t.signalActions

theorem SameSignals.queued (h : SameSignals t t') : t'.Queued s ↔ t.Queued s := by
  simp only [Queued, h.pending]

theorem takePendingSignal_same (t : GuestThread) : t.takePendingSignal.2.signalMask = t.signalMask ∧
      t.takePendingSignal.2.cpu = t.cpu := by
  rw [takePendingSignal, takeLoop_keeps 64 t]
  exact ⟨rfl, rfl⟩

def HasRoom (t : GuestThread) (action : SignalAction) : Prop :=
  (t.guestPointer (t.placeFor t.cpu action).handlerSp (t.placeFor t.cpu action).size true).isSome

def handlerMask (t : GuestThread) (s : Nat) (action : SignalAction) : UInt64 :=
  let mask := t.signalMask ||| action.mask
  if action.flags &&& kSaNodefer = 0 then mask ||| signalBit s else mask

theorem placeFor_congr {state state' : GuestCpuState} (h : state.gregs kRsp = state'.gregs kRsp)
    (action : SignalAction) : t.placeFor state action = t.placeFor state' action := by
  simp only [placeFor, handlerStack, h]

/-- What a frame below the handler's stack pointer `sp` says of an interrupted thread. One
that would run past the last address is not looked for. -/
def FrameAt (t : GuestThread) (saved : GuestCpuState) (action : SignalAction) (sp : UInt64)
    (x : Sys) : Prop :=
  let width := if t.narrow then 4 else 8
  let frame := (x.toHost sp).toNat
  frame + 1404 < 2 ^ 64 → number x.host.mem width frame = action.restorer.toNat % 256 ^ width ∧
  if t.narrow then Reads x.host.mem (frame + 144) (narrowUcFields t saved)
  else Reads x.host.mem frame (ucFields t saved action (sp + 568))

/-- `t'` is at the first instruction of a handler, on a frame with what `t` was interrupted
in: its registers, but for the result of the call and an `rip` that goes back to it. -/
structure AtHandler (t : GuestThread) (s : Nat) (action : SignalAction) (t' : GuestThread) :
    Prop where
  rip : t'.cpu.rip = action.handler
  signal : t'.cpu.gregs (if t.narrow then kRax else kRdi) = UInt64.ofNat s
  frame : ∃ saved : GuestCpuState, (∀ r, r ≠ kRax → saved.gregs r = t.cpu.gregs r) ∧
    (saved.rip = t.cpu.rip ∨ saved.rip = t.cpu.rip - 2) ∧
    t.FrameAt saved action (t'.cpu.gregs kRsp) t'.sys

theorem frameAt_of_push {saved handler : GuestCpuState} {sender : UInt32} {action : SignalAction}
    (hpush : t.pushSignalFrame saved s sender action = (some handler, t')) :
    t.FrameAt saved action (handler.gregs kRsp) t'.sys := by
  obtain ⟨hhandler, hprocess, -, hhost, -, -⟩ := pushSignalFrame_some hpush
  have hto : ∀ a, t'.sys.toHost a = t.sys.toHost a := fun a =>
    congrArg (fun p : GuestProcess => p.syscalls.toHost a) hprocess
  rw [hhandler, handlerRegisters_rsp]
  simp only [FrameAt, hto]
  intro hfit
  have hsize : (t.placeFor saved action).size.toNat ≤ 1404 := by
    cases hn : t.narrow with
    | false => rw [(placeFor_wide hn saved action).2.2.2.1]; decide
    | true => rw [(placeFor_narrow hn saved action).2.2]; decide
  refine ⟨returnAddress hpush (by omega), ?_⟩
  rw [hhost]
  cases hn : t.narrow with
  | false =>
    obtain ⟨-, hinfo, hfp, -, -⟩ := placeFor_wide hn saved action
    rw [← hfp]
    exact (writeFrame_wide saved s sender action hn hinfo hfp hfit).1
  | true => exact (writeFrame_narrow saved s sender action _ hn (by omega)).2

theorem pushSignalFrame_cases {state : GuestCpuState} (hsp : state.gregs kRsp = t.cpu.gregs kRsp)
    (s : Nat) (sender : UInt32) (action : SignalAction) :
    (¬ t.HasRoom action ∧ t.pushSignalFrame state s sender action = (none, t)) ∨
    (t.HasRoom action ∧ ∃ handler t', t.pushSignalFrame state s sender action = (some handler, t') ∧
      t'.pendingSignals = t.pendingSignals ∧ t'.signalActions = t.signalActions ∧
      t'.signalMask = t.handlerMask s action ∧ t'.cpu = t.cpu ∧ handler.rip = action.handler ∧
      handler.gregs (if t.narrow then kRax else kRdi) = UInt64.ofNat s ∧
      t.FrameAt state action (handler.gregs kRsp) t'.sys) := by
  simp only [HasRoom, ← placeFor_congr hsp action]
  cases hptr : t.guestPointer (t.placeFor state action).handlerSp (t.placeFor state action).size
      true with
  | none =>
    refine .inl ⟨by simp, ?_⟩
    simp only [pushSignalFrame, hptr]
  | some frame =>
    have hpush : t.pushSignalFrame state s sender action = (some (t.handlerRegisters state s action
        (t.placeFor state action)), { t.withHost (t.writeFrame state s sender action
          (t.placeFor state action) frame) with signalMask := t.handlerMask s action }) := by
      simp only [pushSignalFrame, hptr]
      rfl
    refine .inr ⟨rfl, _, _, hpush, rfl, rfl, rfl, rfl, rfl, ?_, frameAt_of_push hpush⟩
    rw [handlerRegisters]
    cases t.narrow with
    | false => rfl
    | true => rfl

theorem AtHandler.of_taken {out : Taken} {t₁ : GuestThread} {action : SignalAction}
    (htake : t.takePendingSignal = (out, t₁)) (h : AtHandler t₁ s action t') :
    AtHandler t s action t' := by
  have hkeep : t.takePendingSignal.2 = _ := takeLoop_keeps 64 t
  rw [htake] at hkeep
  change t₁ = _ at hkeep
  rw [hkeep] at h
  exact ⟨h.rip, h.signal, h.frame⟩

inductive Delivered (t : GuestThread) (captures restores : Bool) :
    Option Nat → GuestThread → Prop where
  | nothing {t₁ t' : GuestThread} (htake : t.takePendingSignal = (.nothing, t₁))
      (hsame : SameSignals t₁ t') : Delivered t captures restores none t'
  | exits {t₁ : GuestThread} {status : Nat} (htake : t.takePendingSignal = (.exits status, t₁)) :
      Delivered t captures restores (some status) t₁
  | refused {t₁ t' : GuestThread} {s : Nat} {sender : UInt32} {action : SignalAction}
      (htake : t.takePendingSignal = (.handler s sender action, t₁))
      (hno : captures = false ∨ ¬ t₁.HasRoom action) (hsame : SameSignals t₁ t')
      (hcpu : t'.cpu = t.cpu) : Delivered t captures restores none t'
  | pushed {t₁ t' : GuestThread} {s : Nat} {sender : UInt32} {action : SignalAction}
      (htake : t.takePendingSignal = (.handler s sender action, t₁)) (hcaptures : captures = true)
      (hroom : t₁.HasRoom action) (hpending : t'.pendingSignals = t₁.pendingSignals)
      (hactions : t'.signalActions = t₁.signalActions)
      (hmask : t'.signalMask = t₁.handlerMask s action)
      (hcpu : if restores then AtHandler t s action t' else t'.cpu = t.cpu) :
      Delivered t captures restores none t'

section

variable {captures restores : Bool} {status : Option Nat}
  (h : Delivered t captures restores status t')
include h

theorem Delivered.pending : t'.pendingSignals = t.takePendingSignal.2.pendingSignals := by
  cases h with
  | nothing htake hsame => rw [htake, hsame.pending]
  | exits htake => rw [htake]
  | refused htake _ hsame _ => rw [htake, hsame.pending]
  | pushed htake _ _ hpending _ _ _ => rw [htake, hpending]

theorem Delivered.status_eq (n : Nat) : status = some n ↔ t.takePendingSignal.1 = .exits n := by
  cases h with
  | nothing htake _ => simp [htake]
  | exits htake => simp [htake]
  | refused htake _ _ _ => simp [htake]
  | pushed htake _ _ _ _ _ _ => simp [htake]

end

def answersOf : SignalEvent → Bool × Bool
  | .leave captures restores _ _ => (captures, restores)
  | .nudge captures restores => (captures, restores)
  | _ => (false, false)

def pastCall (t : GuestThread) : GuestThread := if !t.ripPlaced then t.advanceGuestRip 2 else t

def takesAt (t : GuestThread) : SignalEvent → Option GuestThread
  | .leave _ _ _ _ => if t.pastCall.signalPending then some t.pastCall else none
  | .nudge captures _ =>
    if !t.signalPending || !captures then none else some { t with inHostHandler := true }
  | _ => none

theorem advanceGuestRip_same (t : GuestThread) (n : UInt64) :
    SameSignals t (t.advanceGuestRip n) := by
  unfold advanceGuestRip
  split
  · exact ⟨rfl, rfl, rfl⟩
  · exact ⟨rfl, rfl, rfl⟩

theorem deliverSignalWith_delivered (t : GuestThread) (captures restores : Bool)
    (guestNumber result : UInt64) : Delivered t captures restores
      (t.deliverSignalWith captures restores guestNumber result).1.status
      (t.deliverSignalWith captures restores guestNumber result).2 := by
  have hcpu := (takePendingSignal_same t).2
  simp only [deliverSignalWith]
  split
  next htake => exact .exits htake
  next t₁ htake =>
    split
    · exact .nothing htake (advanceGuestRip_same t₁ _)
    · exact .nothing htake ⟨rfl, rfl, rfl⟩
  next s sender action t₁ htake =>
    rw [htake] at hcpu
    cases captures with
    | false => exact .refused htake (.inl rfl) ⟨rfl, rfl, rfl⟩ hcpu
    | true =>
      generalize hsaved : ({ GuestCpuState.set t₁.cpu kRax _ with rip := _ } :
        GuestCpuState) = saved
      have hregs : ∀ r, r ≠ kRax → saved.gregs r = t₁.cpu.gregs r := fun r hr => by
        rw [← hsaved]
        exact if_neg hr
      have hback : saved.rip = t₁.cpu.rip ∨ saved.rip = t₁.cpu.rip - 2 := by
        rw [← hsaved]
        exact (ite_eq_or_eq _ _ _).symm
      rcases pushSignalFrame_cases (hregs kRsp (by decide)) s sender action with
        ⟨hno, hpush⟩ | ⟨hroom, _, _, hpush, hpending, hactions, hmask, hkept, hrip, hs, hframe⟩
      · rw [hpush]
        exact .refused htake (.inr hno) ⟨rfl, rfl, rfl⟩ hcpu
      · rw [hpush]
        cases restores with
        | false => exact .pushed htake rfl hroom hpending hactions hmask (hkept.trans hcpu)
        | true =>
          exact .pushed htake rfl hroom hpending hactions hmask
            (.of_taken htake ⟨hrip, hs, saved, hregs, hback, hframe⟩)

theorem pastCall_same (t : GuestThread) : SameSignals t t.pastCall := by
  unfold pastCall
  split
  · exact advanceGuestRip_same t 2
  · exact ⟨rfl, rfl, rfl⟩

theorem step_leave (captures restores : Bool) (guestNumber result : UInt64) :
    t.step (.leave captures restores guestNumber result) = if t.pastCall.signalPending then
        let out := t.pastCall.deliverSignalWith captures restores guestNumber result
        (out.1.status, out.2)
      else (none, t.pastCall) := by
  have hfinish : t.finishSyscallWith captures restores guestNumber result =
      if t.pastCall.signalPending then
        t.pastCall.deliverSignalWith captures restores guestNumber result
      else if result = failLinux kErestartsys then (.returned (failLinux 4), t.pastCall)
      else (.returned result, t.pastCall) := rfl
  simp only [step, hfinish]
  split
  · rfl
  · split
    · rfl
    · rfl

theorem nudge_delivered (restores : Bool) (hready : t.signalPending = true) :
    Delivered { t with inHostHandler := true } true restores (t.nudge true restores).1
      (t.nudge true restores).2 := by
  have hcpu := (takePendingSignal_same { t with inHostHandler := true }).2
  have hturn : (!t.signalPending || !true) = false := by rw [hready]; rfl
  simp only [nudge, hturn, Bool.false_eq_true, if_false]
  split
  next htake => exact .exits htake
  next htake => exact .nothing htake ⟨rfl, rfl, rfl⟩
  next s sender action t₁ htake =>
    rw [htake] at hcpu
    rcases pushSignalFrame_cases rfl s sender action with
      ⟨hno, hpush⟩ | ⟨hroom, _, _, hpush, hpending, hactions, hmask, hkept, hrip, hs, hframe⟩
    · rw [hpush]
      exact .refused htake (.inr hno) ⟨rfl, rfl, rfl⟩ hcpu
    · rw [hpush]
      cases restores with
      | false => exact .pushed htake rfl hroom hpending hactions hmask (hkept.trans hcpu)
      | true =>
        exact .pushed htake rfl hroom hpending hactions hmask
          (.of_taken htake ⟨hrip, hs, _, fun _ _ => rfl, .inl rfl, hframe⟩)

variable {e : SignalEvent}

theorem step_delivered (h : t.takesAt e = some t₀) : SameSignals t t₀ ∧
      Delivered t₀ (answersOf e).1 (answersOf e).2 (t.step e).1 (t.step e).2 := by
  cases e with
  | leave captures restores guestNumber result =>
    rw [takesAt] at h
    split at h
    next hpending =>
      cases h
      rw [step_leave, if_pos hpending]
      exact ⟨pastCall_same t,
        deliverSignalWith_delivered t.pastCall captures restores guestNumber result⟩
    next => cases h
  | nudge _ restores =>
    rw [takesAt] at h
    split at h
    next => cases h
    next hready =>
      cases h
      rw [Bool.or_eq_true, not_or, Bool.not_eq_true', Bool.not_eq_true', Bool.not_eq_false,
        Bool.not_eq_false] at hready
      obtain ⟨hpending, rfl⟩ := hready
      exact ⟨⟨rfl, rfl, rfl⟩, nudge_delivered restores hpending⟩
  | sigaction _ _ _ => cases h
  | sigprocmask _ _ _ => cases h
  | sigaltstack _ _ => cases h
  | sigreturn => cases h
  | queue _ _ => cases h
  | elsewhere _ _ _ _ => cases h

/-! ## The other events -/

theorem answer_same {address size : UInt64} {fields : List Field}
    (h : t.answer address size fields = some t') : SameSignals t t' := by
  rw [answer] at h
  split at h
  · split at h
    · cases h
    · cases h
      exact ⟨rfl, rfl, rfl⟩
  · cases h
    exact ⟨rfl, rfl, rfl⟩

structure Tidy (t t' : GuestThread) : Prop where
  pending : t'.pendingSignals = t.pendingSignals
  mask : t'.signalMask = t.signalMask ∨ t'.signalMask &&& kUnblockable = 0
  actions : ∀ s, t'.signalActions s = t.signalActions s ∨ s ≠ kSigkill ∧ s ≠ kSigstop

theorem SameSignals.tidy (h : SameSignals t t') : Tidy t t' :=
  ⟨h.pending, .inl h.mask, fun s => .inl (by rw [h.actions])⟩

section

variable (t)

theorem doRtSigaction_tidy (signal : Int) (act old : UInt64) :
    Tidy t (t.doRtSigaction signal act old).2 := by
  have hself : Tidy t t := SameSignals.tidy ⟨rfl, rfl, rfl⟩
  simp only [doRtSigaction]
  split
  · exact hself
  split
  · exact hself
  next t₁ hanswer =>
    have hsame := answer_same hanswer
    split
    · split
      · exact hsame.tidy
      next hcaught =>
        split
        · exact hsame.tidy
        · refine ⟨hsame.pending, .inl hsame.mask, fun s => ?_⟩
          by_cases hs : s = signal.toNat
          · rw [hs]
            exact .inr (not_or.mp hcaught)
          · refine .inl ?_
            simp [setAction, hs, hsame.actions]
    · exact hsame.tidy

theorem doRtSigprocmask_tidy (how : Int) (set old : UInt64) :
    Tidy t (t.doRtSigprocmask how set old).2 := by
  simp only [doRtSigprocmask]
  split
  · exact SameSignals.tidy ⟨rfl, rfl, rfl⟩
  next t₁ hanswer =>
    have hsame := answer_same hanswer
    split
    · split
      · exact hsame.tidy
      split
      · exact hsame.tidy
      · exact ⟨hsame.pending, .inr (and_not_and_word _ _), fun s => .inl (by rw [← hsame.actions])⟩
    · exact hsame.tidy

theorem setAltstack_same (sp : UInt64) (flags : UInt32) (stackSize : UInt64) :
    SameSignals t (t.setAltstack sp flags stackSize).2 := by
  rw [setAltstack]
  split
  · exact ⟨rfl, rfl, rfl⟩
  split
  · exact ⟨rfl, rfl, rfl⟩
  · exact ⟨rfl, rfl, rfl⟩

end

theorem SameSignals.trans {t'' : GuestThread} (h : SameSignals t t') (h' : SameSignals t' t'') :
    SameSignals t t'' :=
  ⟨h'.pending.trans h.pending, h'.mask.trans h.mask, h'.actions.trans h.actions⟩

theorem doSigaltstack_same (t : GuestThread) (new old : UInt64) :
    SameSignals t (t.doSigaltstack new old).2 := by
  rw [doSigaltstack]
  split
  · exact ⟨rfl, rfl, rfl⟩
  next t₁ hanswer =>
    have hsame := answer_same hanswer
    split
    · split
      · exact hsame
      split
      · exact hsame.trans (setAltstack_same _ _ _ _)
      · exact hsame.trans (setAltstack_same _ _ _ _)
    · exact hsame

theorem doRtSigreturn_tidy (t : GuestThread) : Tidy t t.doRtSigreturn.2 := by
  simp only [doRtSigreturn]
  split
  · exact SameSignals.tidy ⟨rfl, rfl, rfl⟩
  split
  · exact SameSignals.tidy ⟨rfl, rfl, rfl⟩
  next state mask hread =>
    have hclear : mask &&& ~~~(signalBit kSigkill ||| signalBit kSigstop) &&& kUnblockable = 0 :=
      and_not_and_word _ _
    rw [restoreCpuState, restoredTo]
    split
    next hrestore =>
      split at hrestore
      · cases hrestore
      · exact ⟨rfl, .inr hclear, fun s => .inl rfl⟩
    next hrestore =>
      split at hrestore
      · cases hrestore
        exact ⟨rfl, .inr hclear, fun s => .inl rfl⟩
      · cases hrestore

def Queues (e : SignalEvent) (s : Nat) : Prop :=
  ∃ signal sender, e = .queue signal sender ∧ 0 < signal ∧ signal ≤ 64 ∧ s = signal.toNat

theorem step_elsewhere (h : t.takesAt e = none) :
    (t.step e).1 = none ∧ (∀ s, (t.step e).2.Queued s ↔ t.Queued s ∨ Queues e s) ∧
    ((t.step e).2.signalMask = t.signalMask ∨ (t.step e).2.signalMask &&& kUnblockable = 0) ∧
    ∀ s, (t.step e).2.signalActions s = t.signalActions s ∨ s ≠ kSigkill ∧ s ≠ kSigstop := by
  have htidy : ∀ t', (∀ signal sender, e ≠ .queue signal sender) → Tidy t t' →
      (∀ s, t'.Queued s ↔ t.Queued s ∨ Queues e s) ∧
        (t'.signalMask = t.signalMask ∨ t'.signalMask &&& kUnblockable = 0) ∧
        ∀ s, t'.signalActions s = t.signalActions s ∨ s ≠ kSigkill ∧ s ≠ kSigstop := by
    intro t' hne h
    refine ⟨fun s => ?_, h.mask, h.actions⟩
    rw [or_iff_left fun ⟨signal, sender, heq, _⟩ => hne signal sender heq]
    simp only [Queued, h.pending]
  cases e with
  | sigaction signal act old =>
    exact ⟨rfl, htidy _ (fun _ _ => by simp) (doRtSigaction_tidy t signal act old)⟩
  | sigprocmask how set old =>
    exact ⟨rfl, htidy _ (fun _ _ => by simp) (doRtSigprocmask_tidy t how set old)⟩
  | sigaltstack new old =>
    exact ⟨rfl, htidy _ (fun _ _ => by simp) (doSigaltstack_same t new old).tidy⟩
  | sigreturn => exact ⟨rfl, htidy _ (fun _ _ => by simp) (doRtSigreturn_tidy t)⟩
  | elsewhere _ _ _ _ =>
    exact ⟨rfl, htidy _ (fun _ _ => by simp) (SameSignals.tidy ⟨rfl, rfl, rfl⟩)⟩
  | leave _ _ _ _ =>
    rw [takesAt] at h
    split at h
    · cases h
    next hpending =>
      rw [step_leave, if_neg hpending]
      exact ⟨rfl, htidy _ (fun _ _ => by simp) (pastCall_same t).tidy⟩
  | nudge captures restores =>
    rw [takesAt] at h
    split at h
    next hquiet =>
      have hstep : t.step (.nudge captures restores) = (none, t) := by simp [step, nudge, hquiet]
      rw [hstep]
      exact ⟨rfl, htidy _ (fun _ _ => by simp) (SameSignals.tidy ⟨rfl, rfl, rfl⟩)⟩
    next => cases h
  | queue signal sender =>
    refine ⟨rfl, fun s => ?_, ?_, ?_⟩
    · simp only [step, queueSignal]
      split
      next hout =>
        rw [or_iff_left]
        rintro ⟨_, _, heq, hlow, hhigh, -⟩
        cases heq
        omega
      next hin =>
        obtain ⟨i, hi⟩ : ∃ i : Nat, signal.toNat = i + 1 := ⟨signal.toNat - 1, by omega⟩
        have hsome : Queues (.queue signal sender) s ↔ s = i + 1 := by
          constructor
          · rintro ⟨_, _, heq, -, -, hs⟩
            cases heq
            omega
          · intro hs
            exact ⟨signal, sender, rfl, by omega, by omega, by omega⟩
        simp only [Queued, hi, hsome]
        by_cases hs : 0 < s
        · rw [queued_or_signalBit (by omega) _ hs]
          simp [hs]
        · omega
    · simp only [step, queueSignal]
      split
      · exact .inl rfl
      · exact .inl rfl
    · intro s
      simp only [step, queueSignal]
      split
      · exact .inl rfl
      · exact .inl rfl

/-! ## The mask -/

/-- A run of events that are as `ok` has them, none of which ended the
process. -/
def SignalRun (ok : GuestThread → SignalEvent → Prop) : GuestThread → GuestThread → Prop :=
  Relation.ReflTransGen fun t t' => ∃ e, ok t e ∧ t.step e = (none, t')

/-- Nothing that cannot be blocked is blocked, and what cannot be caught is left
to the system. -/
structure Guarded (t : GuestThread) : Prop where
  mask : t.signalMask &&& kUnblockable = 0
  kill : (t.signalActions kSigkill).handler = 0
  stop : (t.signalActions kSigstop).handler = 0

/-- An event enters a handler whose action blocks `SIGKILL` or `SIGSTOP`. -/
def Blocks (t : GuestThread) (e : SignalEvent) : Prop :=
  ∃ t₀ s sender action t₁, t.takesAt e = some t₀ ∧ t₀.takePendingSignal = (.handler s sender action,
    t₁) ∧ (answersOf e).1 = true ∧ t₁.HasRoom action ∧ action.mask &&& kUnblockable ≠ 0

theorem signalBit_open (hs : 0 < s) (hle : s ≤ 64) (hkill : s ≠ kSigkill) (hstop : s ≠ kSigstop) :
    signalBit s &&& kUnblockable = 0 := by
  have hall : ∀ i : Fin 64, i.val + 1 ≠ kSigkill → i.val + 1 ≠ kSigstop →
      signalBit (i.val + 1) &&& kUnblockable = 0 := by decide
  obtain ⟨i, rfl⟩ := Nat.exists_eq_add_one_of_ne_zero (Nat.ne_of_gt hs)
  exact hall ⟨i, by omega⟩ hkill hstop

variable {action : SignalAction}

theorem handlerMask_open_iff (hmask : t.signalMask &&& kUnblockable = 0)
    (hs : signalBit s &&& kUnblockable = 0) :
    t.handlerMask s action &&& kUnblockable = 0 ↔ action.mask &&& kUnblockable = 0 := by
  rw [handlerMask]
  split
  · simp [or_and_word, hmask, hs]
  · simp [or_and_word, hmask]

section

variable (h : t.Guarded)
include h

theorem Guarded.of_same (hsame : SameSignals t t') : t'.Guarded :=
  ⟨by rw [hsame.mask]; exact h.mask, by rw [hsame.actions]; exact h.kill,
    by rw [hsame.actions]; exact h.stop⟩

theorem Guarded.table (htakes : TakesFrom t out t') :
    (t'.signalActions kSigkill).handler = 0 ∧ (t'.signalActions kSigstop).handler = 0 := by
  have hkeep : ∀ s, (t.signalActions s).handler = 0 → (t'.signalActions s).handler = 0 := by
    intro s hs
    rcases htakes.table s with heq | heq
    · rw [heq]
      exact hs
    · rw [heq]
      rfl
  exact ⟨hkeep _ h.kill, hkeep _ h.stop⟩

theorem Guarded.takePendingSignal : t.takePendingSignal.2.Guarded := by
  obtain ⟨hkill, hstop⟩ := h.table (takePendingSignal_takesFrom t)
  refine ⟨?_, hkill, hstop⟩
  rw [(takePendingSignal_same t).1]
  exact h.mask

theorem Guarded.handler_open {sender : UInt32}
    (htake : t.takePendingSignal = (.handler s sender action, t')) :
    signalBit s &&& kUnblockable = 0 := by
  have htakes := takePendingSignal_takesFrom t
  rw [htake] at htakes
  obtain ⟨hq, -, haction, hhandled⟩ := htakes.taken s sender action rfl
  refine signalBit_open hq.1 hq.le (fun hs => ?_) fun hs => ?_
  · rw [haction, hs, SignalAction.handled, h.kill] at hhandled
    exact nomatch hhandled
  · rw [haction, hs, SignalAction.handled, h.stop] at hhandled
    exact nomatch hhandled

theorem Guarded.step (e : SignalEvent) : ((t.step e).2.signalActions kSigkill).handler = 0 ∧
      ((t.step e).2.signalActions kSigstop).handler = 0 ∧
      ((t.step e).2.signalMask &&& kUnblockable = 0 ↔ ¬ t.Blocks e) := by
  cases htakes : t.takesAt e with
  | none =>
    obtain ⟨-, -, hmask, hactions⟩ := step_elsewhere htakes
    have hnone : ¬ t.Blocks e := by
      rintro ⟨_, s, _, _, _, hsome, -⟩
      exact nomatch htakes.symm.trans hsome
    refine ⟨?_, ?_, iff_of_true ?_ hnone⟩
    · rw [(hactions kSigkill).resolve_right fun hne => hne.1 rfl]
      exact h.kill
    · rw [(hactions kSigstop).resolve_right fun hne => hne.2 rfl]
      exact h.stop
    · rcases hmask with heq | hopen
      · rw [heq]
        exact h.mask
      · exact hopen
  | some t₀ =>
    obtain ⟨hsame, hdelivered⟩ := step_delivered htakes
    have h₀ := h.of_same hsame
    have h₁ := h₀.takePendingSignal
    have hblocks : t.Blocks e ↔ ∃ s sender action t₁,
        t₀.takePendingSignal = (.handler s sender action, t₁) ∧ (answersOf e).1 = true ∧
        t₁.HasRoom action ∧ action.mask &&& kUnblockable ≠ 0 := by
      simp only [Blocks, htakes, Option.some.injEq]
      exact ⟨fun ⟨_, s, sender, action, t₁, hsome, hrest⟩ =>
        ⟨s, sender, action, t₁, hsome ▸ hrest⟩,
        fun ⟨s, sender, action, t₁, hrest⟩ => ⟨t₀, s, sender, action, t₁, rfl, hrest⟩⟩
    rw [hblocks]
    generalize t.step e = out at hdelivered ⊢
    obtain ⟨_, t'⟩ := out
    cases hdelivered with
    | nothing htake hrest =>
      rw [htake] at h₁
      have h' := h₁.of_same hrest
      refine ⟨h'.kill, h'.stop, iff_of_true h'.mask ?_⟩
      rintro ⟨s, _, _, _, hhandler, -⟩
      exact nomatch htake.symm.trans hhandler
    | exits htake =>
      rw [htake] at h₁
      refine ⟨h₁.kill, h₁.stop, iff_of_true h₁.mask ?_⟩
      rintro ⟨s, _, _, _, hhandler, -⟩
      exact nomatch htake.symm.trans hhandler
    | refused htake hno hrest _ =>
      rw [htake] at h₁
      have h' := h₁.of_same hrest
      refine ⟨h'.kill, h'.stop, iff_of_true h'.mask ?_⟩
      rintro ⟨s, _, _, _, hhandler, hcaptures, hroom, -⟩
      cases htake.symm.trans hhandler
      rcases hno with hno | hno
      · exact nomatch hno.symm.trans hcaptures
      · exact hno hroom
    | pushed htake hcaptures hroom _ hactions hmask _ =>
      have hbit := h₀.handler_open htake
      rw [htake] at h₁
      rw [hactions, hmask, handlerMask_open_iff h₁.mask hbit]
      refine ⟨h₁.kill, h₁.stop, fun hopen => ?_, fun hno => ?_⟩
      · rintro ⟨s, _, _, _, hhandler, -, -, hblocked⟩
        cases htake.symm.trans hhandler
        exact hblocked hopen
      · by_contra hblocked
        exact hno ⟨_, _, _, _, htake, hcaptures, hroom, hblocked⟩

end

variable {l : Ledger}

/-- `SIGKILL` is ready, and taking comes to it: the process ends, or a handler
goes first and it is still there. -/
def KillTakeable (t : GuestThread) : Prop :=
  t.ready &&& signalBit kSigkill ≠ 0 ∧
  ((∃ status, t.takePendingSignal.1 = .exits status) ∨
    (∃ s sender action, t.takePendingSignal.1 = .handler s sender action) ∧
      t.takePendingSignal.2.Queued kSigkill)

theorem Guarded.ready_kill (h : t.Guarded) (hq : t.Queued kSigkill) :
    t.ready.toNat.testBit 8 = true := by
  have hbit : t.signalMask.toNat.testBit 8 = false := by
    have hmask := congrArg (fun v : UInt64 => v.toNat.testBit 8) h.mask
    have hkill : kUnblockable.toNat.testBit 8 = true := by decide
    simpa only [UInt64.toNat_and, Nat.testBit_and, hkill, Bool.and_true, UInt64.toNat_zero,
      Nat.zero_testBit] using hmask
  have hpending : t.pendingSignals.toNat.testBit 8 = true := hq.2
  rw [ready, testBit_and_not _ _ (by decide), hpending, hbit]
  rfl

theorem Guarded.killTakeable (h : t.Guarded) (hq : t.Queued kSigkill) : t.KillTakeable := by
  refine ⟨fun hzero => ?_, ?_⟩
  · have hbit := congrArg (fun v : UInt64 => v.toNat.testBit 8) hzero
    simp only [UInt64.toNat_and, Nat.testBit_and, h.ready_kill hq] at hbit
    exact absurd hbit (by decide)
  · have htakes := takePendingSignal_takesFrom t
    have hkeep : (∀ status, t.takePendingSignal.1 ≠ .exits status) →
        t.takePendingSignal.2.Queued kSigkill := by
      intro hne
      by_contra hgone
      rcases htakes.gone kSigkill hq hgone with hignored | ⟨_, hhandler⟩ | hexits
      · exact hignored.2 ⟨h.kill, by decide, by decide, by decide⟩
      · have hhandled := (htakes.taken _ _ _ hhandler).2.2.2
        rw [SignalAction.handled, h.kill] at hhandled
        simp at hhandled
      · exact hne _ hexits
    cases htake : t.takePendingSignal with
    | mk out _ =>
      rw [htake] at hkeep
      cases out with
      | exits status => exact .inl ⟨status, rfl⟩
      | handler s sender action => exact .inr ⟨⟨s, sender, action, rfl⟩, hkeep (by simp)⟩
      | nothing =>
        -- It would still be ready, and nothing comes back only when nothing is.
        have hleft := h.takePendingSignal
        rw [htake] at hleft
        have hready := hleft.ready_kill (hkeep (by simp))
        have hnone := takePendingSignal_nothing htake
        rw [signalPending, bne_eq_false_iff_eq] at hnone
        rw [hnone] at hready
        simp at hready

/-- In every run that enters no handler whose action blocks `SIGKILL` or
`SIGSTOP`, neither is ever in the mask, and a `SIGKILL` on the queue can be taken;
and such an event is what it takes to put one there. -/
theorem mask_stays_open {t₀ : GuestThread} (hstart : t₀.Guarded)
    (hrun : SignalRun (fun t e => ¬ t.Blocks e) t₀ t) :
    t.signalMask &&& kUnblockable = 0 ∧ (t.Queued kSigkill → t.KillTakeable) ∧
    ∀ e, (t.step e).2.signalMask &&& kUnblockable = 0 ↔ ¬ t.Blocks e := by
  have hguarded : t.Guarded := by
    induction hrun with
    | refl => exact hstart
    | tail _ hlast ih =>
      obtain ⟨e, hopen, hstep⟩ := hlast
      obtain ⟨hkill, hstop, hmask⟩ := ih.step e
      rw [hstep] at hkill hstop hmask
      exact ⟨hmask.mpr hopen, hkill, hstop⟩
  exact ⟨hguarded.mask, hguarded.killTakeable, fun e => (hguarded.step e).2.2⟩

def loudMemory : Sys := { running.sys with host := { running.sys.host with mem := fun _ => 0xff } }

def loud : GuestThread :=
  ((running.step (.elsewhere loudMemory midway true true)).2.step (.sigaction 10 0x100010100 0)).2

theorem loud_run (ok : GuestThread → SignalEvent → Prop)
    (hok : ∀ sys cpu attached placed, ok running (.elsewhere sys cpu attached placed))
    (hcall : ∀ t, ok t (.sigaction 10 0x100010100 0)) : SignalRun ok running loud :=
  .tail (.single ⟨_, hok _ _ _ _, rfl⟩) ⟨_, hcall _, rfl⟩

theorem guarded_running : running.Guarded := ⟨by decide, rfl, rfl⟩

theorem sigkill_blocked : running.Guarded ∧ ∃ t, SignalRun (fun _ _ => True) running t ∧
      t.signalMask &&& kUnblockable = kUnblockable ∧ t.Queued kSigkill ∧
      t.takePendingSignal = (.nothing, t) := by
  have hrun := loud_run (fun _ _ => True) (fun _ _ _ _ => trivial) fun _ => trivial
  refine ⟨guarded_running, _, .tail (.tail (.tail hrun ⟨.queue 10 1, trivial, rfl⟩)
    ⟨.leave true true 0 0, trivial, rfl⟩) ⟨.queue 9 1, trivial, rfl⟩, by decide, ?_, rfl⟩
  exact ⟨by decide, by decide⟩

theorem mask_stays_open_running : running.signalMask &&& kUnblockable = 0 ∧
      ((running.queueSignal 9 1).Queued kSigkill → (running.queueSignal 9 1).KillTakeable) := by
  have hopen : ¬ running.Blocks (.queue 9 1) := by
    rintro ⟨_, s, _, _, _, htakes, -⟩
    exact nomatch htakes
  exact ⟨(mask_stays_open guarded_running .refl).1,
    (mask_stays_open guarded_running (.single ⟨.queue 9 1, hopen, rfl⟩)).2.1⟩

/-! ## No signal is lost -/

section

variable (t : GuestThread) (e : SignalEvent)

def Tries (t₀ : GuestThread) (s : Nat) (action : SignalAction) (t₁ : GuestThread) : Prop :=
  t.takesAt e = some t₀ ∧ ∃ sender, t₀.takePendingSignal = (.handler s sender action, t₁)

/-- A signal leaves the queue, and the thread is at its handler, on a frame. -/
def Enters (s : Nat) : Prop :=
  t.Queued s ∧ ¬ (t.step e).2.Queued s ∧
  ∃ t₀, t.takesAt e = some t₀ ∧ t₀.AtHandler s (t.signalActions s) (t.step e).2

/-- Nothing moves the thread to a handler at whose first instruction it is. -/
def AtStart : Prop :=
  ∃ t₀ s action t₁, t.Tries e t₀ s action t₁ ∧ t₀.cpu.rip = action.handler

/-- What the engine and the stack answer to a delivery. -/
def Refused (t₁ : GuestThread) (action : SignalAction) : Prop :=
  (answersOf e).1 = false ∨ ¬ t₁.HasRoom action ∨ (answersOf e).2 = false

def Fails : Prop :=
  ∃ t₀ s action t₁, t.Tries e t₀ s action t₁ ∧ Refused e t₁ action

def Settles (s : Nat) : Prop :=
  t.Enters e s ∨ (Ignores (t.signalActions s) s ∧ t.Queued s ∧ ¬ (t.step e).2.Queued s) ∨
  (t.step e).1 = some (128 + s)

/-- A failed delivery leaves the mask, the table and the registers alone. -/
def FailureKeeps : Prop :=
  t.Fails e → (t.step e).2.signalMask = t.signalMask ∧ (t.step e).2.signalActions =
    t.signalActions ∧ ∀ t₀, t.takesAt e = some t₀ → (t.step e).2.cpu = t₀.cpu

end

/-- A thread, and the signals that were queued and have come to nothing yet. -/
structure Ledger where
  thread : GuestThread
  owed : Set Nat

def Ledger.after (l : Ledger) (e : SignalEvent) : Ledger :=
  ⟨(l.thread.step e).2, {s | (s ∈ l.owed ∨ Queues e s) ∧ ¬ l.thread.Settles e s}⟩

def Ledger.Kept (l : Ledger) : Prop := ∀ s ∈ l.owed, l.thread.Queued s

def LedgerRun (ok : GuestThread → SignalEvent → Prop) : Ledger → Ledger → Prop :=
  Relation.ReflTransGen fun l l' => ∃ e, ok l.thread e ∧ (l.thread.step e).1 = none ∧ l' = l.after e

theorem Tries.atHandler (h : t.Tries e t₀ s action t₁) (hno : ¬ Refused e t₁ action) :
    t₀.AtHandler s action (t.step e).2 := by
  obtain ⟨htakes, _, htake⟩ := h
  have hdelivered := (step_delivered htakes).2
  simp only [Refused, not_or, not_not, Bool.not_eq_false] at hno
  rw [hno.1, hno.2.2] at hdelivered
  generalize t.step e = out at hdelivered ⊢
  obtain ⟨_, t'⟩ := out
  cases hdelivered with
  | nothing htake' _ => cases htake.symm.trans htake'
  | exits htake' => cases htake.symm.trans htake'
  | refused htake' hrefused _ _ =>
    cases htake.symm.trans htake'
    exact absurd hno.2.1 (hrefused.resolve_left nofun)
  | pushed htake' _ _ _ _ _ hat =>
    cases htake.symm.trans htake'
    exact hat

theorem Tries.cpu_of_refused (h : t.Tries e t₀ s action t₁) (hno : Refused e t₁ action) :
    (t.step e).2.cpu = t₀.cpu := by
  obtain ⟨htakes, _, htake⟩ := h
  have hdelivered := (step_delivered htakes).2
  generalize t.step e = out at hdelivered ⊢
  obtain ⟨_, t'⟩ := out
  cases hdelivered with
  | nothing htake' _ => cases htake.symm.trans htake'
  | exits htake' => cases htake.symm.trans htake'
  | refused _ _ _ hcpu => exact hcpu
  | pushed htake' hcaptures hroom _ _ _ hcpu =>
    cases htake.symm.trans htake'
    rcases hno with hno | hno | hno
    · exact nomatch hno.symm.trans hcaptures
    · exact absurd hroom hno
    · rwa [hno] at hcpu

theorem after_kept (hkept : l.Kept) (hok : ¬ l.thread.Fails e) : (l.after e).Kept := by
  rintro s ⟨howed, hopen⟩
  cases htakes : l.thread.takesAt e with
  | none =>
    refine ((step_elsewhere htakes).2.1 s).mpr ?_
    exact howed.imp (hkept s) id
  | some t₀ =>
    obtain ⟨hsame, hdelivered⟩ := step_delivered htakes
    have hq : l.thread.Queued s := by
      rcases howed with howed | ⟨_, _, rfl, -⟩
      · exact hkept s howed
      · cases htakes
    by_contra hgone
    have hstep : t₀.takePendingSignal.2.Queued s ↔ (l.thread.step e).2.Queued s := by
      simp only [Queued, hdelivered.pending]
    rcases (takePendingSignal_takesFrom t₀).gone s (hsame.queued.mpr hq)
      (fun h => hgone (hstep.mp h)) with hignored | ⟨sender, hhandler⟩ | hexits
    · rw [hsame.actions] at hignored
      exact hopen (.inr (.inl ⟨hignored, hq, hgone⟩))
    · have htries : l.thread.Tries e t₀ s (t₀.signalActions s) t₀.takePendingSignal.2 :=
        ⟨htakes, sender, Prod.ext hhandler rfl⟩
      refine hopen (.inl ⟨hq, hgone, t₀, htakes, ?_⟩)
      rw [← hsame.actions]
      exact htries.atHandler fun hno => hok ⟨_, _, _, _, htries, hno⟩
    · exact hopen (.inr (.inr ((hdelivered.status_eq _).mpr hexits)))

def Ledger.Full (l : Ledger) : Prop := ∀ s, l.thread.Queued s → s ∈ l.owed

theorem Tries.unique {t₀' t₁' : GuestThread} {s' : Nat} {action' : SignalAction}
    (h : t.Tries e t₀ s action t₁) (h' : t.Tries e t₀' s' action' t₁') :
    t₀ = t₀' ∧ s = s' ∧ action = action' ∧ t₁ = t₁' := by
  obtain ⟨htakes, _, htake⟩ := h
  obtain ⟨htakes', _, htake'⟩ := h'
  cases htakes.symm.trans htakes'
  cases htake.symm.trans htake'
  exact ⟨rfl, rfl, rfl, rfl⟩

theorem Tries.taken (h : t.Tries e t₀ s action t₁) : t.Queued s ∧ ¬ (t.step e).2.Queued s ∧
      ¬ Ignores (t.signalActions s) s ∧ (t.step e).1 = none ∧ action = t.signalActions s := by
  obtain ⟨htakes, sender, htake⟩ := h
  obtain ⟨hsame, hdelivered⟩ := step_delivered htakes
  have hfrom := takePendingSignal_takesFrom t₀
  obtain ⟨hq, hgone, haction, hhandled⟩ := hfrom.taken s sender action (by rw [htake])
  rw [hsame.actions] at haction
  refine ⟨hsame.queued.mp hq, fun h => hgone ?_, fun hignored => ?_, ?_, haction⟩
  · simp only [Queued, hdelivered.pending] at h
    exact h
  · rw [← haction] at hignored
    exact nomatch hignored.1.symm.trans hhandled
  · rw [Option.eq_none_iff_forall_ne_some]
    intro n hn
    have hexits := (hdelivered.status_eq n).mp hn
    rw [htake] at hexits
    exact nomatch hexits

theorem Tries.lost (hfull : l.Full) (htries : l.thread.Tries e t₀ s action t₁)
    (hno : Refused e t₁ action) (hstart : t₀.cpu.rip ≠ action.handler) :
    s ∈ (l.after e).owed ∧ ¬ (l.after e).thread.Queued s := by
  obtain ⟨hq, hgone, hignored, hstatus, haction⟩ := htries.taken
  refine ⟨⟨.inl (hfull s hq), ?_⟩, hgone⟩
  rintro (⟨-, -, _, -, hat⟩ | ⟨hign, -⟩ | hended)
  · refine hstart ?_
    rw [haction, ← hat.rip, htries.cpu_of_refused hno]
  · exact hignored hign
  · exact nomatch hstatus.symm.trans hended

theorem after_full (hfull : l.Full) (hgoes : (l.thread.step e).1 = none) : (l.after e).Full := by
  intro s hq
  change (l.thread.step e).2.Queued s at hq
  have hopen : ¬ l.thread.Settles e s := by
    rintro (⟨-, hgone, -⟩ | ⟨-, -, hgone⟩ | hended)
    · exact hgone hq
    · exact hgone hq
    · exact nomatch hgoes.symm.trans hended
  refine ⟨?_, hopen⟩
  cases htakes : l.thread.takesAt e with
  | none => exact (((step_elsewhere htakes).2.1 s).mp hq).imp (hfull s) id
  | some t₀ =>
    obtain ⟨hsame, hdelivered⟩ := step_delivered htakes
    refine .inl (hfull s (hsame.queued.mp ((takePendingSignal_takesFrom t₀).fewer s ?_)))
    simp only [Queued, hdelivered.pending] at hq
    exact hq

/-- In every run without a failed delivery each signal that was queued is on the
queue, or was ignored, or had its handler entered, or ended the process. And a failed
delivery loses its signal: of each event this is so, with a failed delivery leaving
things as they were, exactly if it is no failed delivery. -/
theorem signals_accounted {l₀ l : Ledger} (hstart : ∀ s, s ∈ l₀.owed ↔ l₀.thread.Queued s)
    (hrun : LedgerRun (fun t e => ¬ t.Fails e) l₀ l) : l.Kept ∧ ∀ e, ¬ l.thread.AtStart e →
    ((l.after e).Kept ∧ l.thread.FailureKeeps e ↔ ¬ l.thread.Fails e) := by
  have hinv : l.Kept ∧ l.Full := by
    induction hrun with
    | refl => exact ⟨fun s => (hstart s).mp, fun s => (hstart s).mpr⟩
    | tail _ hlast ih =>
      obtain ⟨e, hok, hgoes, rfl⟩ := hlast
      exact ⟨after_kept ih.1 hok, after_full ih.2 hgoes⟩
  refine ⟨hinv.1, fun e hmoves => ⟨fun hkept hfails => ?_, fun hok => ?_⟩⟩
  · obtain ⟨_, s, _, _, htries, hno⟩ := hfails
    obtain ⟨howed, hgone⟩ := htries.lost hinv.2 hno fun h => hmoves ⟨_, _, _, _, htries, h⟩
    exact hgone (hkept.1 s howed)
  · exact ⟨after_kept hinv.1 hok, fun hfails => absurd hfails hok⟩

def stackless : GuestCpuState := midway.set kRsp 0x10

/-- `SIGUSR1` on the queue of a thread with these registers, and the action in
which every bit is set. -/
def usr1Queued (cpu : GuestCpuState) : Ledger :=
  (((Ledger.mk running ∅).after (.elsewhere loudMemory cpu true true)).after
    (.sigaction 10 0x100010100 0)).after (.queue 10 1)

theorem running_owes (s : Nat) : s ∈ (Ledger.mk running ∅).owed ↔ running.Queued s := by
  refine iff_of_false (Set.notMem_empty s) fun h => ?_
  have hzero : (0).testBit (s - 1) = true := h.2
  rw [Nat.zero_testBit] at hzero
  exact nomatch hzero

theorem not_fails_of_takesAt (h : t.takesAt e = none) : ¬ t.Fails e := by
  rintro ⟨_, s, _, _, ⟨htakes, -⟩, -⟩
  exact nomatch h.symm.trans htakes

theorem usr1Queued_run (cpu : GuestCpuState) :
    LedgerRun (fun t e => ¬ t.Fails e) ⟨running, ∅⟩ (usr1Queued cpu) :=
  .tail (.tail (.single ⟨.elsewhere loudMemory cpu true true, not_fails_of_takesAt rfl, rfl, rfl⟩)
    ⟨.sigaction 10 0x100010100 0, not_fails_of_takesAt rfl, rfl, rfl⟩)
    ⟨.queue 10 1, not_fails_of_takesAt rfl, rfl, rfl⟩

theorem sigusr1_lost : (usr1Queued stackless).thread.Queued 10 ∧
      ((usr1Queued stackless).thread.signalActions 10).handled = true ∧
      10 ∈ ((usr1Queued stackless).after (.leave true true 0 0)).owed ∧
      ¬ ((usr1Queued stackless).after (.leave true true 0 0)).thread.Queued 10 ∧
      ((usr1Queued stackless).after (.leave true true 0 0)).thread.signalActions 10 =
        SignalAction.none := by
  have hfull : (usr1Queued stackless).Full :=
    after_full (after_full (after_full (fun s => (running_owes s).mpr) rfl) rfl) rfl
  have htries : (usr1Queued stackless).thread.Tries (.leave true true 0 0) _ 10 _ _ := ⟨rfl, _, rfl⟩
  obtain ⟨howed, hgone⟩ := htries.lost hfull (.inr (.inl (by unfold HasRoom; decide))) (by decide)
  exact ⟨⟨by decide, by decide⟩, by decide, howed, hgone, by rfl⟩

theorem signals_accounted_midway :
    ((usr1Queued midway).after (.leave true true 0 0)).thread.cpu.rip = 0xffffffffffffffff ∧
    ((usr1Queued midway).after (.leave true true 0 0)).Kept := by
  have hok : ¬ (usr1Queued midway).thread.Fails (.leave true true 0 0) := by
    rintro ⟨_, s, _, _, htries, hno⟩
    have htries' : (usr1Queued midway).thread.Tries (.leave true true 0 0) _ 10 _ _ := ⟨rfl, _, rfl⟩
    obtain ⟨rfl, rfl, rfl, rfl⟩ := htries.unique htries'
    rcases hno with hno | hno | hno
    · exact nomatch hno
    · exact hno (by unfold HasRoom; decide)
    · exact nomatch hno
  refine ⟨by rfl, ?_⟩
  exact (signals_accounted running_owes (.tail (usr1Queued_run midway) ⟨_, hok, rfl, rfl⟩)).1

end GuestThread

end Fathom
