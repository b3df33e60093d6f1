import Fathom.Proofs.Delivery

/-!
# Where a signal's frame goes

Below the stack pointer a function may keep 128 bytes it never announces, and
above it everything is in use, so a frame belongs below the red zone; and a
handler that is to run on the alternate stack gets the frame there, which is no
use if it does not fit.
-/

namespace Fathom

open Lib GuestAddressSpace

namespace GuestThread

variable {t t' : GuestThread} {state : GuestCpuState} {action : SignalAction}

/-! ## The alternate stack -/

/-- What `sigaltstack` leaves: no alternate stack, or one that is not too
small. -/
def AltstackSet (t : GuestThread) : Prop := t.altstackDisabled = true ∨ 2048 ≤ t.altstackSize.toNat

theorem AltstackSet.size_ne (h : t.AltstackSet) (hon : t.altstackDisabled = false) :
    t.altstackSize ≠ 0 := by
  intro hzero
  rcases h with hoff | hsize
  · rw [hon] at hoff
    cases hoff
  · rw [hzero] at hsize
    exact absurd hsize (by decide)

structure SameAltstack (t t' : GuestThread) : Prop where
  disabled : t'.altstackDisabled = t.altstackDisabled
  sp : t'.altstackSp = t.altstackSp
  size : t'.altstackSize = t.altstackSize

theorem AltstackSet.of_same (h : t.AltstackSet) (hsame : SameAltstack t t') : t'.AltstackSet := by
  unfold AltstackSet
  rw [hsame.disabled, hsame.size]
  exact h

theorem answer_altstack {address size : UInt64} {fields : List Field}
    (h : t.answer address size fields = some t') : SameAltstack t t' := by
  rw [answer] at h
  split at h
  · split at h
    · cases h
    · cases h
      exact ⟨rfl, rfl, rfl⟩
  · cases h
    exact ⟨rfl, rfl, rfl⟩

theorem setAltstack_set (h : t.AltstackSet) (sp : UInt64) (flags : UInt32) (stackSize : UInt64) :
    (t.setAltstack sp flags stackSize).2.AltstackSet := by
  rw [setAltstack]
  split
  · exact .inl rfl
  split
  · exact h
  next hsize =>
    rw [UInt64.not_lt] at hsize
    exact .inr hsize

theorem doSigaltstack_set (h : t.AltstackSet) (new old : UInt64) :
    (t.doSigaltstack new old).2.AltstackSet := by
  rw [doSigaltstack]
  split
  · exact h
  next t₁ hanswer =>
    have h₁ := h.of_same (answer_altstack hanswer)
    split
    · split
      · exact h₁
      split
      · exact setAltstack_set h₁ _ _ _
      · exact setAltstack_set h₁ _ _ _
    · exact h₁

theorem SameAltstack.trans {t'' : GuestThread} (h : SameAltstack t t') (h' : SameAltstack t' t'') :
    SameAltstack t t'' :=
  ⟨h'.disabled.trans h.disabled, h'.sp.trans h.sp, h'.size.trans h.size⟩

section

variable (t)

theorem doRtSigaction_altstack (signal : Int) (act old : UInt64) :
    SameAltstack t (t.doRtSigaction signal act old).2 := by
  simp only [doRtSigaction]
  split
  · exact ⟨rfl, rfl, rfl⟩
  split
  · exact ⟨rfl, rfl, rfl⟩
  next t₁ hanswer =>
    have h₁ := answer_altstack hanswer
    split
    · split
      · exact h₁
      split
      · exact h₁
      · exact h₁.trans ⟨rfl, rfl, rfl⟩
    · exact h₁

theorem doRtSigprocmask_altstack (how : Int) (set old : UInt64) :
    SameAltstack t (t.doRtSigprocmask how set old).2 := by
  simp only [doRtSigprocmask]
  split
  · exact ⟨rfl, rfl, rfl⟩
  next t₁ hanswer =>
    have h₁ := answer_altstack hanswer
    split
    · split
      · exact h₁
      split
      · exact h₁
      · exact h₁.trans ⟨rfl, rfl, rfl⟩
    · exact h₁

theorem doRtSigreturn_altstack : SameAltstack t t.doRtSigreturn.2 := by
  simp only [doRtSigreturn]
  split
  · exact ⟨rfl, rfl, rfl⟩
  split
  · exact ⟨rfl, rfl, rfl⟩
  split
  · exact ⟨rfl, rfl, rfl⟩
  next t₁ hrestore =>
    rw [restoreCpuState, restoredTo] at hrestore
    split at hrestore
    · cases hrestore
      exact ⟨rfl, rfl, rfl⟩
    · cases hrestore

theorem advanceGuestRip_altstack (n : UInt64) : SameAltstack t (t.advanceGuestRip n) := by
  rw [advanceGuestRip]
  split
  · exact ⟨rfl, rfl, rfl⟩
  · exact ⟨rfl, rfl, rfl⟩

theorem takePendingSignal_altstack : SameAltstack t t.takePendingSignal.2 := by
  rw [takePendingSignal, takeLoop_keeps 64 t]
  exact ⟨rfl, rfl, rfl⟩

end

theorem pushSignalFrame_altstack {s : Nat} {sender : UInt32} {out : Option GuestCpuState}
    (h : t.pushSignalFrame state s sender action = (out, t')) : SameAltstack t t' := by
  rw [pushSignalFrame] at h
  split at h
  · cases h
    exact ⟨rfl, rfl, rfl⟩
  · cases h
    exact ⟨rfl, rfl, rfl⟩

theorem restoredTo_altstack {restores : Bool} (h : t.restoredTo restores state = some t') :
    SameAltstack t t' := by
  rw [restoredTo] at h
  split at h
  · cases h
    exact ⟨rfl, rfl, rfl⟩
  · cases h

theorem deliverSignalWith_altstack (t : GuestThread) (captures restores : Bool)
    (guestNumber result : UInt64) :
    SameAltstack t (t.deliverSignalWith captures restores guestNumber result).2 := by
  have htaken := takePendingSignal_altstack t
  unfold deliverSignalWith
  cases htake : t.takePendingSignal with
  | mk out _ =>
    rw [htake] at htaken
    cases out with
    | exits _ => exact htaken
    | nothing =>
      simp only
      split
      · exact htaken.trans (advanceGuestRip_altstack _ _)
      · exact htaken
    | handler s _ _ =>
      simp only
      split
      · exact htaken
      split
      next hpush => exact htaken.trans (pushSignalFrame_altstack hpush)
      next state t₂ hpush =>
        have hpushed := htaken.trans (pushSignalFrame_altstack hpush)
        split
        · exact hpushed
        next hrestored =>
          exact hpushed.trans ((restoredTo_altstack hrestored).trans ⟨rfl, rfl, rfl⟩)

theorem nudge_altstack (t : GuestThread) (captures restores : Bool) :
    SameAltstack t (t.nudge captures restores).2 := by
  unfold nudge
  split
  · exact ⟨rfl, rfl, rfl⟩
  cases htake : takePendingSignal { t with inHostHandler := true } with
  | mk out t₁ =>
    have htaken : SameAltstack t t₁ := by
      have hfrom := takePendingSignal_altstack { t with inHostHandler := true }
      rw [htake] at hfrom
      exact ⟨hfrom.disabled, hfrom.sp, hfrom.size⟩
    cases out with
    | exits _ => exact htaken
    | nothing => exact htaken.trans ⟨rfl, rfl, rfl⟩
    | handler s _ _ =>
      simp only
      split
      next hpush => exact htaken.trans ((pushSignalFrame_altstack hpush).trans ⟨rfl, rfl, rfl⟩)
      next state t₂ hpush =>
        have hpushed : SameAltstack t { t₂ with inHostHandler := false } :=
          htaken.trans ((pushSignalFrame_altstack hpush).trans ⟨rfl, rfl, rfl⟩)
        cases hrestored : restoredTo { t₂ with inHostHandler := false } restores state with
        | none => exact hpushed
        | some _ => exact hpushed.trans (restoredTo_altstack hrestored)

theorem AltstackSet.step (h : t.AltstackSet) (e : SignalEvent) : (t.step e).2.AltstackSet := by
  cases e with
  | sigaction signal act old => exact h.of_same (doRtSigaction_altstack t signal act old)
  | sigprocmask how set old => exact h.of_same (doRtSigprocmask_altstack t how set old)
  | sigaltstack new old => exact doSigaltstack_set h new old
  | sigreturn => exact h.of_same (doRtSigreturn_altstack t)
  | queue _ _ =>
    refine h.of_same ?_
    simp only [GuestThread.step, queueSignal]
    split
    · exact ⟨rfl, rfl, rfl⟩
    · exact ⟨rfl, rfl, rfl⟩
  | leave _ _ _ _ =>
    refine h.of_same ?_
    have hpast : SameAltstack t t.pastCall := by
      rw [pastCall]
      split
      · exact advanceGuestRip_altstack t 2
      · exact ⟨rfl, rfl, rfl⟩
    rw [step_leave]
    split
    · exact hpast.trans (deliverSignalWith_altstack _ _ _ _ _)
    · exact hpast
  | nudge captures restores => exact h.of_same (nudge_altstack t captures restores)
  | elsewhere _ _ _ _ => exact h.of_same ⟨rfl, rfl, rfl⟩

theorem AltstackSet.run (h : t.AltstackSet) (hrun : SignalRun (fun _ _ => True) t t') :
    t'.AltstackSet := by
  induction hrun with
  | refl => exact h
  | tail _ hlast ih =>
    obtain ⟨e, -, hstep⟩ := hlast
    have hnext := ih.step e
    rw [hstep] at hnext
    exact hnext

/-! ## What a frame may cover -/

def frameBytes (place : FramePlace) : Set Nat :=
  {y | place.handlerSp.toNat ≤ y ∧ y < place.handlerSp.toNat + place.size.toNat}

def altstack (t : GuestThread) : Set Nat :=
  {y | t.altstackDisabled = false ∧ t.altstackSp.toNat ≤ y ∧
    y < t.altstackSp.toNat + t.altstackSize.toNat}

def OnAltstack (t : GuestThread) (rsp : UInt64) : Prop :=
  t.altstackDisabled = false ∧ t.altstackSp.toNat < rsp.toNat ∧
  rsp.toNat ≤ t.altstackSp.toNat + t.altstackSize.toNat

theorem onAltstack_of_word {rsp : UInt64} (hon : t.altstackDisabled = false)
    (habove : rsp > t.altstackSp) (hbelow : rsp ≤ t.altstackSp + t.altstackSize) :
    t.OnAltstack rsp := by
  exact ⟨hon, habove, hbelow.trans (Nat.mod_le _ _)⟩

def Wants (t : GuestThread) (action : SignalAction) : Prop :=
  action.flags &&& kSaOnstack ≠ 0 ∧ t.altstackDisabled = false

structure WellPlaced (t : GuestThread) (rsp : UInt64) (action : SignalAction)
    (frame : Set Nat) : Prop where
  redZone : ∀ y ∈ frame, ¬ (y < rsp.toNat ∧ rsp.toNat ≤ y + 128)
  above : ∀ y ∈ frame, rsp.toNat ≤ y → (t.Wants action ∧ ¬ t.OnAltstack rsp) ∧ y ∈ t.altstack
  inside : t.Wants action ∨ t.OnAltstack rsp → frame ⊆ t.altstack

/-- `PushSignalFrame` puts a frame where one may be, or does nothing. -/
def SafePush (t : GuestThread) (state : GuestCpuState) (s : Nat) (sender : UInt32)
    (action : SignalAction) : Prop :=
  t.pushSignalFrame state s sender action = (none, t) ∨
  t.WellPlaced (state.gregs kRsp) action (frameBytes (t.placeFor state action))

/-! ## Where it goes -/

def frameStart (top : Nat) : Nat := roundDown 64 (top - 836) - 568

/-- When that is a place for it: on the alternate stack the code must not be
there already nor have its red zone reach into the frame, and on the stack it
has, there must be room for a frame, in what is left of the alternate stack if
it is that. -/
def Clear (t : GuestThread) (rsp : UInt64) (action : SignalAction) : Prop :=
  let altstackTop := t.altstackSp.toNat + t.altstackSize.toNat
  (t.Wants action → ¬ t.OnAltstack rsp ∧ altstackTop < 2 ^ 64 + 1412 ∧
    (rsp.toNat ≤ t.altstackSp.toNat ∨ frameStart altstackTop + 1532 ≤ rsp.toNat)) ∧
  (¬ t.Wants action → 1540 ≤ rsp.toNat ∧
    (t.OnAltstack rsp → t.altstackSp.toNat ≤ frameStart (rsp.toNat - 128)))

theorem frameStart_bounds (top : Nat) (h : 1412 ≤ top) :
    frameStart top + 1404 ≤ top ∧ top < frameStart top + 1468 ∧ 8 ≤ frameStart top := by
  have hle := roundDown_le 64 (top - 836)
  have hlt := lt_roundDown_add (show 0 < 64 by decide) (top - 836)
  have hdvd := dvd_roundDown 64 (top - 836)
  unfold frameStart
  omega

theorem frameStart_lt_iff (top : Nat) (h : 1412 ≤ top) :
    frameStart top < 2 ^ 64 ↔ top < 2 ^ 64 + 1412 := by
  have hdvd := dvd_roundDown 64 (top - 836)
  have hround := roundDown_lt_iff (n := top - 836) (show 0 < 64 by decide)
    (show 64 ∣ 2 ^ 64 + 576 by decide)
  unfold frameStart
  omega

theorem handlerSp_toNat (onAltstack : Bool) (sp : UInt64) {top : Nat} (h : 1412 ≤ top)
    (htop : top % 2 ^ 64 = (if onAltstack then sp else sp - 128).toNat) :
    (framePlace false onAltstack sp).handlerSp.toNat = frameStart top % 2 ^ 64 := by
  have hfp := (framePlace_wide onAltstack sp).2.2.1
  have hstart : (framePlace false onAltstack sp).fpAddress =
      ((if onAltstack then sp else sp - 128) - kXstateFrameSize) &&& ~~~63 := by
    cases onAltstack with
    | false => rfl
    | true => rfl
  rw [hstart, ← UInt64.toNat_inj, toNat_mask64, UInt64.toNat_sub, UInt64.toNat_add,
    show kXstateFrameSize.toNat = 836 from rfl, show (568 : UInt64).toNat = 568 from rfl] at hfp
  have hlt := toNat_lt_word (framePlace false onAltstack sp).handlerSp
  unfold frameStart roundDown at *
  omega

section

variable (hn : t.narrow = false)
include hn

theorem mem_frameBytes {y : Nat} : y ∈ frameBytes (t.placeFor state action) ↔
      (t.placeFor state action).handlerSp.toNat ≤ y ∧
        y < (t.placeFor state action).handlerSp.toNat + 1404 := by
  simp only [frameBytes, (placeFor_wide hn state action).2.2.2.1]
  rfl

theorem placeFor_stack (hwants : ¬ t.Wants action) (top : Nat) (h : 1412 ≤ top)
    (htop : top % 2 ^ 64 = (state.gregs kRsp - 128).toNat) :
    (t.placeFor state action).handlerSp.toNat = frameStart top % 2 ^ 64 := by
  have hstack : t.handlerStack state action = (state.gregs kRsp, false) := by
    exact if_neg fun hall => hwants ⟨hall.1, hall.2.1⟩
  simp only [placeFor, hn, hstack]
  exact handlerSp_toNat false _ h htop

theorem placeFor_altstack (hset : t.AltstackSet) (hwants : t.Wants action) (top : Nat)
    (h : 1412 ≤ top) (htop : top % 2 ^ 64 = (if state.gregs kRsp > t.altstackSp ∧
      state.gregs kRsp ≤ t.altstackSp + t.altstackSize
      then state.gregs kRsp else t.altstackSp + t.altstackSize).toNat) :
    (t.placeFor state action).handlerSp.toNat = frameStart top % 2 ^ 64 := by
  simp only [placeFor, hn, handlerStack]
  rw [if_pos ⟨hwants.1, hwants.2, hset.size_ne hwants.2⟩]
  exact handlerSp_toNat true _ h htop

theorem wellPlaced_stack_iff (hwants : ¬ t.Wants action) :
    t.WellPlaced (state.gregs kRsp) action (frameBytes (t.placeFor state action)) ↔
    1540 ≤ (state.gregs kRsp).toNat ∧ (t.OnAltstack (state.gregs kRsp) →
      t.altstackSp.toNat ≤ frameStart ((state.gregs kRsp).toNat - 128)) := by
  have hword := toNat_lt_word (state.gregs kRsp)
  have hless : (state.gregs kRsp - 128).toNat =
      ((state.gregs kRsp).toNat + (2 ^ 64 - 128)) % 2 ^ 64 := by
    rw [UInt64.toNat_sub, show (128 : UInt64).toNat = 128 from rfl, Nat.add_comm]
  by_cases hlow : 1540 ≤ (state.gregs kRsp).toNat
  · have hbounds := frameStart_bounds ((state.gregs kRsp).toNat - 128) (by omega)
    have hsp : (t.placeFor state action).handlerSp.toNat =
        frameStart ((state.gregs kRsp).toNat - 128) := by
      rw [placeFor_stack hn hwants ((state.gregs kRsp).toNat - 128) (by omega) (by omega)]
      omega
    constructor
    · intro h
      refine ⟨hlow, fun hon => ?_⟩
      have hfirst := h.inside (.inr hon) ((mem_frameBytes hn).mpr ⟨le_rfl, by omega⟩)
      rw [hsp] at hfirst
      exact hfirst.2.1
    · rintro ⟨-, hfits⟩
      refine ⟨fun y hy => ?_, fun y hy hge => ?_, fun hwhich y hy => ?_⟩
      · rw [mem_frameBytes hn] at hy
        omega
      · rw [mem_frameBytes hn] at hy
        omega
      · have hon := hwhich.resolve_left hwants
        rw [mem_frameBytes hn] at hy
        have hstart := hfits hon
        exact ⟨hon.1, by omega, by have := hon.2.2; omega⟩
  · -- The frame wrapped to the other end of the numbers.
    have hbounds := frameStart_bounds ((state.gregs kRsp).toNat + (2 ^ 64 - 128)) (by omega)
    have hsp : (state.gregs kRsp).toNat ≤ (t.placeFor state action).handlerSp.toNat := by
      have hlt := (frameStart_lt_iff ((state.gregs kRsp).toNat + (2 ^ 64 - 128))
        (by omega)).mpr (by omega)
      rw [placeFor_stack hn hwants ((state.gregs kRsp).toNat + (2 ^ 64 - 128)) (by omega)
        hless.symm]
      omega
    refine iff_of_false (fun h => ?_) fun h => hlow h.1
    exact hwants (h.above _ ((mem_frameBytes hn).mpr ⟨le_rfl, by omega⟩) hsp).1.1

theorem not_wellPlaced_nested (hset : t.AltstackSet) (hwants : t.Wants action)
    (habove : state.gregs kRsp > t.altstackSp)
    (hbelow : state.gregs kRsp ≤ t.altstackSp + t.altstackSize) :
    ¬ t.WellPlaced (state.gregs kRsp) action (frameBytes (t.placeFor state action)) := by
  intro h
  have hword := toNat_lt_word (state.gregs kRsp)
  have hon := onAltstack_of_word hwants.2 habove hbelow
  by_cases hlow : 1412 ≤ (state.gregs kRsp).toNat
  · have hbounds := frameStart_bounds _ hlow
    have hsp : (t.placeFor state action).handlerSp.toNat = frameStart (state.gregs kRsp).toNat := by
      rw [placeFor_altstack hn hset hwants _ hlow (by
        rw [if_pos ⟨habove, hbelow⟩]
        omega)]
      omega
    refine h.redZone (frameStart (state.gregs kRsp).toNat + 1403)
      ((mem_frameBytes hn).mpr ⟨by omega, by omega⟩) ⟨by omega, by omega⟩
  · have hbounds := frameStart_bounds ((state.gregs kRsp).toNat + 2 ^ 64) (by omega)
    have hsp : (state.gregs kRsp).toNat ≤ (t.placeFor state action).handlerSp.toNat := by
      have hlt := (frameStart_lt_iff ((state.gregs kRsp).toNat + 2 ^ 64) (by omega)).mpr (by omega)
      rw [placeFor_altstack hn hset hwants ((state.gregs kRsp).toNat + 2 ^ 64) (by omega) (by
          rw [if_pos ⟨habove, hbelow⟩]
          omega)]
      omega
    exact (h.above _ ((mem_frameBytes hn).mpr ⟨le_rfl, by omega⟩) hsp).1.2 hon

theorem wellPlaced_altstack_iff (hset : t.AltstackSet) (hwants : t.Wants action)
    (hout : ¬ (state.gregs kRsp > t.altstackSp ∧ state.gregs kRsp ≤ t.altstackSp + t.altstackSize))
    : t.WellPlaced (state.gregs kRsp) action (frameBytes (t.placeFor state action)) ↔
    ¬ t.OnAltstack (state.gregs kRsp) ∧ t.altstackSp.toNat + t.altstackSize.toNat < 2 ^ 64 + 1412 ∧
    ((state.gregs kRsp).toNat ≤ t.altstackSp.toNat ∨
      frameStart (t.altstackSp.toNat + t.altstackSize.toNat) + 1532 ≤
        (state.gregs kRsp).toNat) := by
  have hword := toNat_lt_word (state.gregs kRsp)
  have hlen := toNat_lt_word t.altstackSize
  have hsize : 2048 ≤ t.altstackSize.toNat := hset.resolve_left (by simp [hwants.2])
  have hbounds := frameStart_bounds (t.altstackSp.toNat + t.altstackSize.toNat) (by omega)
  have hsp : (t.placeFor state action).handlerSp.toNat =
      frameStart (t.altstackSp.toNat + t.altstackSize.toNat) % 2 ^ 64 :=
    placeFor_altstack hn hset hwants _ (by omega) (by rw [if_neg hout, UInt64.toNat_add])
  have hwrap := frameStart_lt_iff (t.altstackSp.toNat + t.altstackSize.toNat) (by omega)
  by_cases hfits : t.altstackSp.toNat + t.altstackSize.toNat < 2 ^ 64 + 1412
  · have hinside : frameBytes (t.placeFor state action) ⊆ t.altstack := by
      intro y hy
      rw [mem_frameBytes hn] at hy
      exact ⟨hwants.2, by omega, by omega⟩
    have hlast : frameStart (t.altstackSp.toNat + t.altstackSize.toNat) + 1403 ∈
        frameBytes (t.placeFor state action) := by
      rw [mem_frameBytes hn]
      omega
    constructor
    · intro h
      have hzone := h.redZone _ hlast
      have hnot : ¬ t.OnAltstack (state.gregs kRsp) := by
        intro hon
        -- The code takes it for another stack: the end of this one wrapped.
        have hend : 2 ^ 64 ≤ t.altstackSp.toNat + t.altstackSize.toNat := by
          rw [gt_iff_lt, UInt64.lt_iff_toNat_lt, UInt64.le_iff_toNat_le, UInt64.toNat_add] at hout
          have hbelow := hon.2.2
          have habove := hon.2.1
          omega
        by_cases hreach : (state.gregs kRsp).toNat ≤
            frameStart (t.altstackSp.toNat + t.altstackSize.toNat) + 1403
        · exact (h.above _ hlast hreach).1.2 hon
        · omega
      have hoff : (state.gregs kRsp).toNat ≤ t.altstackSp.toNat ∨
          t.altstackSp.toNat + t.altstackSize.toNat < (state.gregs kRsp).toNat := by
        have := mt (And.intro hwants.2) hnot
        omega
      exact ⟨hnot, hfits, by omega⟩
    · rintro ⟨hnot, -, hclear⟩
      refine ⟨fun y hy => ?_, fun y hy _ => ⟨⟨hwants, hnot⟩, hinside hy⟩, fun _ => hinside⟩
      rw [mem_frameBytes hn] at hy
      omega
  · -- It wrapped, to below the alternate stack.
    refine iff_of_false (fun h => ?_) fun h => hfits h.2.1
    have hfirst := h.inside (.inl hwants) ((mem_frameBytes hn).mpr ⟨le_rfl, by omega⟩)
    have hge := hfirst.2.1
    omega

theorem wellPlaced_iff_clear (hset : t.AltstackSet) : t.WellPlaced (state.gregs kRsp)
    action (frameBytes (t.placeFor state action)) ↔ t.Clear (state.gregs kRsp) action := by
  by_cases hwants : t.Wants action
  · simp only [Clear, hwants, not_true, true_implies, false_implies, and_true]
    by_cases hon : state.gregs kRsp > t.altstackSp ∧
        state.gregs kRsp ≤ t.altstackSp + t.altstackSize
    · refine iff_of_false (not_wellPlaced_nested hn hset hwants hon.1 hon.2) fun h => ?_
      exact h.1 (onAltstack_of_word hwants.2 hon.1 hon.2)
    · exact wellPlaced_altstack_iff hn hset hwants hon
  · simp only [Clear, hwants, not_false_eq_true, true_implies, false_implies, true_and]
    exact wellPlaced_stack_iff hn hwants

end

/-- With any alternate stack a run can leave, a frame is pushed where it may be
exactly when the place was clear. -/
theorem push_safe_iff_clear {t₀ t₁ : GuestThread} (hstart : t₀.AltstackSet)
    (hrun : SignalRun (fun _ _ => True) t₀ t₁) (hsame : SameAltstack t₁ t)
    (hn : t.narrow = false) (state : GuestCpuState) (s : Nat) (sender : UInt32)
    (action : SignalAction) : t.SafePush state s sender action ↔
    ((t.guestPointer (t.placeFor state action).handlerSp 1404 true).isSome →
      t.Clear (state.gregs kRsp) action) := by
  have hset := (hstart.run hrun).of_same hsame
  have hsize := (placeFor_wide hn state action).2.2.2.1
  rw [SafePush, wellPlaced_iff_clear hn hset]
  simp only [pushSignalFrame, hsize]
  cases t.guestPointer (t.placeFor state action).handlerSp 1404 true with
  | none => simp
  | some _ => simp

def altstackMemory : Sys :=
  { running.sys with
    host := { running.sys.host with
      mem := put (put (put (fun _ => 7) 0x100010100 8 0x100010000) 0x100010108 4 0)
        0x100010110 8 0x4000 } }

def alternating : GuestThread :=
  ((running.step (.elsewhere altstackMemory midway true true)).2.step
    (.sigaltstack 0x100010100 0)).2

def onAltstackHandler : SignalAction := ⟨0x100010040, kSaOnstack, 0x100010080, 0⟩

theorem alternating_run : SignalRun (fun _ _ => True) running alternating :=
  .tail (.single ⟨.elsewhere altstackMemory midway true true, trivial, rfl⟩)
    ⟨.sigaltstack 0x100010100 0, trivial, rfl⟩

theorem redZone_overwritten :
    running.AltstackSet ∧ SignalRun (fun _ _ => True) running alternating ∧
    alternating.narrow = false ∧ alternating.OnAltstack 0x100012000 ∧
    alternating.sys.host.mem 0x100011fc0 = 7 ∧
    (alternating.pushSignalFrame (midway.set kRsp 0x100012000) 10 1
      onAltstackHandler).2.sys.host.mem 0x100011fc0 = 0x45 := by
  refine ⟨.inl rfl, alternating_run, rfl, ⟨rfl, by decide, by decide⟩, rfl, by rfl⟩

theorem push_safe_iff_clear_alternating :
    let outside := midway.set kRsp 0x100020000
    alternating.Wants onAltstackHandler ∧ alternating.SafePush outside 10 1 onAltstackHandler ∧
      (alternating.guestPointer (alternating.placeFor outside onAltstackHandler).handlerSp 1404
        true).isSome := by
  intro outside
  have hwants : alternating.Wants onAltstackHandler := ⟨by decide, rfl⟩
  have hclear : alternating.Clear (outside.gregs kRsp) onAltstackHandler :=
    ⟨fun _ => ⟨fun h => absurd h.2.2 (by decide), by decide, .inr (by decide)⟩,
      fun h => absurd hwants h⟩
  exact ⟨hwants, (push_safe_iff_clear (.inl rfl) alternating_run ⟨rfl, rfl, rfl⟩ rfl outside 10 1
    onAltstackHandler).mpr fun _ => hclear, by decide +kernel⟩

end GuestThread

end Fathom
