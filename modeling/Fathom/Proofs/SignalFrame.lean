import Fathom.Proofs.Commit
import Fathom.Runtime.Signals
import Mathlib.Data.Fintype.Basic
import Mathlib.Tactic.FinCases

/-!
# What a signal frame gives back

`PushSignalFrame` writes an interrupted thread's registers into a frame, in one of two
layouts of some fifty fields, and `DoRtSigreturn` reads them out with code of its own.
-/

namespace Fathom

open Lib Spanned GuestAddressSpace Host

/-! ## Fields in the host's memory -/

section Fields

variable {h : Host} {base : UInt64} {fields : List Field} {low high : Nat}

theorem Host.putFields_mem (hasc : Ascending low high fields) (hfit : base.toNat + high < 2 ^ 64) :
    (h.putFields base fields).mem = Lib.putFields h.mem base.toNat fields := by
  induction fields generalizing h low with
  | nil => rfl
  | cons f _ ih =>
    have hin := hasc.mem (f := f) (by simp)
    have hoff : (UInt64.ofNat f.offset).toNat = f.offset := by
      have hword : f.offset < 2 ^ 64 := by omega
      exact UInt64.toNat_ofNat_of_lt' hword
    have hwidth : (UInt64.ofNat f.width).toNat = f.width := by
      have hword : f.width < 2 ^ 64 := by omega
      exact UInt64.toNat_ofNat_of_lt' hword
    have haddr : (base + UInt64.ofNat f.offset).toNat = base.toNat + f.offset := by
      rw [toNat_add_of_lt (by omega), hoff]
    have hfirst : (h.store (base + UInt64.ofNat f.offset) (UInt64.ofNat f.width) fun x =>
        byteOf f.value (x - (base + UInt64.ofNat f.offset).toNat)).mem =
          put h.mem (base.toNat + f.offset) f.width f.value := by
      funext x
      rw [store_mem, haddr, hwidth]
      rfl
    rw [putFields, ih hasc.2, hfirst, Lib.putFields]

theorem Host.field_eq {offset : Nat} (width : Nat) (hfit : base.toNat + offset < 2 ^ 64) :
    h.field base offset width = number h.mem width (base.toNat + offset) := by
  have hoff : (UInt64.ofNat offset).toNat = offset := by
    have hword : offset < 2 ^ 64 := by omega
    exact UInt64.toNat_ofNat_of_lt' hword
  rw [field, toNat_add_of_lt (by omega), hoff]

end Fields

/-! ## The layouts -/

section Layouts

variable (t : GuestThread) (state : GuestCpuState) (action : SignalAction) (signal : Nat)
  (sender : UInt32) (place : FramePlace)

theorem ascending_uc (fpAddress : UInt64) :
    Ascending 0 312 (ucFields t state action fpAddress) := of_decide_eq_true rfl

theorem ascending_fxsave : Ascending 0 416 (fxsaveFields state) := of_decide_eq_true rfl

theorem ascending_xstate : Ascending 464 836 (xstateFields state) := of_decide_eq_true rfl

theorem ascending_info : Ascending 0 20 (infoFields t signal sender) := of_decide_eq_true rfl

theorem ascending_narrowHead : Ascending 0 32 (narrowHeadFields t signal sender action place) :=
  of_decide_eq_true rfl

theorem ascending_narrowUc : Ascending 8 116 (narrowUcFields t state) := of_decide_eq_true rfl

end Layouts

/-! ## Where a frame goes -/

theorem framePlace_wide (onAltstack : Bool) (sp : UInt64) :
    let place := framePlace false onAltstack sp
    place.ucAddress = place.handlerSp + 8 ∧ place.infoAddress = place.handlerSp + 432 ∧
      place.fpAddress = place.handlerSp + 568 ∧ place.size = 1404 ∧ 64 ∣ place.fpAddress.toNat := by
  intro place
  have hdvd : 64 ∣ place.fpAddress.toNat := by
    change 64 ∣ (_ &&& ~~~(63 : UInt64)).toNat
    rw [toNat_mask64]
    exact dvd_roundDown _ _
  have hlt := toNat_lt_word place.fpAddress
  have hmask : (place.fpAddress - 560) &&& ~~~15 = place.fpAddress - 560 := by
    have h16 : 16 ∣ (place.fpAddress - 560).toNat := by
      rw [UInt64.toNat_sub, show (560 : UInt64).toNat = 560 from rfl]
      omega
    rw [← UInt64.toNat_inj, toNat_mask16, roundDown_eq_iff (by decide) h16]
    omega
  have hsp : place.handlerSp + 568 = place.fpAddress := by
    change ((place.fpAddress - 560) &&& ~~~15) - 8 + 568 = _
    rw [hmask, ← UInt64.toNat_inj, UInt64.toNat_add, UInt64.toNat_sub, UInt64.toNat_sub,
      show (560 : UInt64).toNat = 560 from rfl, show (8 : UInt64).toNat = 8 from rfl,
      show (568 : UInt64).toNat = 568 from rfl]
    omega
  have hsize : place.size = 1404 := by
    change place.fpAddress + kXstateFrameSize - place.handlerSp = _
    rw [← hsp, UInt64.add_assoc, UInt64.add_comm, UInt64.add_sub_cancel]
    rfl
  exact ⟨rfl, UInt64.add_assoc _ _ _, hsp.symm, hsize, hdvd⟩

theorem framePlace_narrow (onAltstack : Bool) (sp : UInt64) :
    let place := framePlace true onAltstack sp
    place.infoAddress = place.handlerSp + 16 ∧ place.ucAddress = place.handlerSp + 144 ∧
      place.size = 268 :=
  ⟨rfl, UInt64.add_assoc _ _ _, rfl⟩

/-! ## What is written is there -/

section Written

variable {t : GuestThread} (state : GuestCpuState) (signal : Nat) (sender : UInt32)
  (action : SignalAction) {place : FramePlace} {frame : UInt64}

theorem add_sub_self (a b : UInt64) : a + b - a = b := by
  rw [UInt64.add_comm, UInt64.add_sub_cancel]

theorem writeFrame_wide (hn : t.narrow = false) (hinfo : place.infoAddress = place.handlerSp + 432)
    (hfp : place.fpAddress = place.handlerSp + 568) (hfit : frame.toNat + 1404 < 2 ^ 64) :
    let m := (t.writeFrame state signal sender action place frame).mem
    Reads m frame.toNat (ucFields t state action place.fpAddress) ∧ Reads m (frame.toNat + 568)
      (fxsaveFields state) ∧ Reads m (frame.toNat + 568) (xstateFields state) := by
  have hfp' : (frame + 568).toNat = frame.toNat + 568 :=
    toNat_add_of_lt (by change frame.toNat + 568 < _; omega)
  have hinfo' : (frame + 432).toNat = frame.toNat + 432 :=
    toNat_add_of_lt (by change frame.toNat + 432 < _; omega)
  intro m
  let h₁ := t.sys.host.store frame place.size fun _ => 0
  let h₂ := h₁.putFields frame (ucFields t state action place.fpAddress)
  let h₃ := h₂.store (frame + 568) 512 fun _ => 0
  let h₄ := h₃.putFields (frame + 568) (fxsaveFields state)
  let h₅ := h₄.putFields (frame + 568) (xstateFields state)
  have hm : m = (h₅.putFields (frame + 432) (infoFields t signal sender)).mem := by
    have hfpOff : place.fpAddress - place.handlerSp = 568 := by rw [hfp, add_sub_self]
    have hinfoOff : place.infoAddress - place.handlerSp = 432 := by rw [hinfo, add_sub_self]
    simp only [m, GuestThread.writeFrame, hn, hfpOff, hinfoOff]
    rfl
  have h2 : h₂.mem = Lib.putFields h₁.mem frame.toNat _ :=
    putFields_mem (ascending_uc t state action _) (by omega)
  have h3 : ∀ x, x < frame.toNat + 568 → h₃.mem x = h₂.mem x := by
    intro x hx
    rw [store_mem, if_neg (by omega)]
  have h4 : h₄.mem = Lib.putFields h₃.mem (frame.toNat + 568) (fxsaveFields state) := by
    rw [← hfp']
    exact putFields_mem (ascending_fxsave state) (by omega)
  have h5 : h₅.mem = Lib.putFields h₄.mem (frame.toNat + 568) (xstateFields state) := by
    rw [← hfp']
    exact putFields_mem (ascending_xstate state) (by omega)
  have h6 : m = Lib.putFields h₅.mem (frame.toNat + 432) (infoFields t signal sender) := by
    rw [hm, ← hinfo']
    exact putFields_mem (ascending_info t signal sender) (by omega)
  have hlast : ∀ x, (x < frame.toNat + 432 ∨ frame.toNat + 568 ≤ x) → m x = h₅.mem x := by
    intro x hx
    rw [h6]
    exact putFields_apart (ascending_info t signal sender) (by omega)
  have hxs : ∀ x, x < frame.toNat + 568 + 464 → h₅.mem x = h₄.mem x := by
    intro x hx
    rw [h5]
    exact putFields_apart (ascending_xstate state) (.inl hx)
  refine ⟨?_, ?_, ?_⟩
  · refine Reads.congr (reads_putFields (ascending_uc t state action _) h₁.mem frame.toNat)
      (ascending_uc t state action _) fun x _ hx => ?_
    rw [hlast x (by omega), hxs x (by omega), h4,
      putFields_apart (ascending_fxsave state) (by omega), h3 x (by omega), h2]
  · refine Reads.congr (reads_putFields (ascending_fxsave state) h₃.mem _)
      (ascending_fxsave state) fun x h1 hx => ?_
    rw [hlast x (by omega), hxs x (by omega), h4]
  · refine Reads.congr (reads_putFields (ascending_xstate state) h₄.mem _)
      (ascending_xstate state) fun x h1 hx => ?_
    rw [hlast x (by omega), h5]

theorem writeFrame_narrow (place : FramePlace) (hn : t.narrow = true)
    (hfit : frame.toNat + 268 < 2 ^ 64) :
    let m := (t.writeFrame state signal sender action place frame).mem
    Reads m frame.toNat (narrowHeadFields t signal sender action place) ∧
      Reads m (frame.toNat + 144) (narrowUcFields t state) := by
  have huc : (frame + 144).toNat = frame.toNat + 144 :=
    toNat_add_of_lt (by change frame.toNat + 144 < _; omega)
  intro m
  let h₁ := t.sys.host.store frame place.size fun _ => 0
  let h₂ := h₁.putFields frame (narrowHeadFields t signal sender action place)
  have hm : m = (h₂.putFields (frame + 144) (narrowUcFields t state)).mem := by
    simp only [m, GuestThread.writeFrame, hn]
    rw [UInt64.add_assoc]
    rfl
  have h2 : h₂.mem = Lib.putFields h₁.mem frame.toNat _ :=
    putFields_mem (ascending_narrowHead t action signal sender place) (by omega)
  have h3 : m = Lib.putFields h₂.mem (frame.toNat + 144) (narrowUcFields t state) := by
    rw [hm, ← huc]
    exact putFields_mem (ascending_narrowUc t state) (by omega)
  constructor
  · refine Reads.congr (reads_putFields (ascending_narrowHead t action signal sender place)
      h₁.mem frame.toNat) (ascending_narrowHead t action signal sender place) fun x _ hx => ?_
    rw [h3, putFields_apart (ascending_narrowUc t state) (by omega), h2]
  · rw [h3]
    exact reads_putFields (ascending_narrowUc t state) h₂.mem _

end Written

/-! ## And read back -/

section Read

variable {h : Host} {base : UInt64} {start offset offset' : Nat} {fields : List Field}

section

variable (hr : Reads h.mem start fields)
include hr

theorem Host.field64_eq {v : UInt64} (hf : ⟨offset', 8, v.toNat⟩ ∈ fields)
    (hat : base.toNat + offset = start + offset') (hfit : base.toNat + offset < 2 ^ 64) :
    h.field64 base offset = v := by
  have hv : number h.mem 8 (start + offset') = v.toNat % 256 ^ 8 := hr _ hf
  have hmod : v.toNat % 256 ^ 8 = v.toNat := Nat.mod_eq_of_lt (toNat_lt_word v)
  rw [field64, field_eq 8 hfit, hat, hv, hmod]
  exact UInt64.ofNat_toNat

theorem Host.field32_eq {v : Nat} (hf : ⟨offset', 4, v⟩ ∈ fields)
    (hat : base.toNat + offset = start + offset') (hfit : base.toNat + offset < 2 ^ 64) :
    h.field32 base offset = UInt32.ofNat v := by
  have hv : number h.mem 4 (start + offset') = v % 256 ^ 4 := hr _ hf
  rw [field32, field_eq 4 hfit, hat, hv, ← UInt32.toNat_inj]
  exact Nat.mod_mod _ _

theorem Host.wideRegs_eq {n : Nat} {regs : Fin n → UInt64 × UInt64}
    (hf : wideFields offset' regs ⊆ fields) (hat : base.toNat + offset = start + offset')
    (hfit : base.toNat + offset + n * 16 < 2 ^ 64) : h.wideRegs base offset n = regs := by
  funext i
  have hlow : ⟨offset' + i.val * 16, 8, (regs i).1.toNat⟩ ∈ fields :=
    hf (List.mem_flatMap.mpr ⟨i, List.mem_finRange i, by simp⟩)
  have hhigh : ⟨offset' + i.val * 16 + 8, 8, (regs i).2.toNat⟩ ∈ fields :=
    hf (List.mem_flatMap.mpr ⟨i, List.mem_finRange i, by simp⟩)
  refine Prod.ext ?_ ?_
  · exact field64_eq hr hlow (by omega) (by omega)
  · exact field64_eq hr hhigh (by omega) (by omega)

end

def gregSlot (r : Fin 16) : Nat := [13, 14, 12, 11, 15, 10, 9, 8, 0, 1, 2, 3, 4, 5, 6, 7].getD r 0

theorem gregSlot_lt (r : Fin 16) : gregSlot r < 16 := by
  revert r
  decide

def scSlot (r : Fin 8) : Nat := 11 - r.val

theorem readGregs_gregs (h : Host) (uc : UInt64) (state : GuestCpuState) (r : Fin 16) :
    (GuestThread.readGregs h uc state).gregs r = h.field64 uc (40 + gregSlot r * 8) := by
  fin_cases r <;> rfl

theorem ucFields_gregs (t : GuestThread) (state : GuestCpuState) (action : SignalAction)
    (fpAddress : UInt64) (r : Fin 16) :
    ⟨8 + (40 + gregSlot r * 8), 8, (state.gregs r).toNat⟩ ∈ ucFields t state action fpAddress := by
  refine List.mem_of_getElem? (i := 5 + gregSlot r) ?_
  fin_cases r <;> rfl

theorem readSc_gregs (h : Host) (uc : UInt64) (state : GuestCpuState) (r : Fin 8) :
    (GuestThread.readSc h uc state).gregs (r.castLE (by decide)) =
      (h.field32 uc (20 + scSlot r * 4)).toUInt64 := by
  fin_cases r <;> rfl

theorem narrowUcFields_gregs (t : GuestThread) (state : GuestCpuState) (r : Fin 8) :
    ⟨20 + scSlot r * 4, 4, (state.gregs (r.castLE (by decide))).toNat⟩ ∈
      narrowUcFields t state := by
  refine List.mem_of_getElem? (i := 3 + scSlot r) ?_
  fin_cases r <;> rfl

end Read

/-! ## Pointers into a frame -/

/-- Nothing is mapped below where the guest's numbers start. -/
def Sys.Numbered (x : Sys) : Prop :=
  ∀ r ∈ x.space.committed, x.process.syscalls.guestBase.toNat ≤ r.begin.toNat

namespace GuestThread

variable {t : GuestThread} {a n off len : UInt64}

theorem guestPointer_eq_some {writable : Bool} {host : UInt64}
    (h : t.guestPointer a n writable = some host) : host = t.sys.toHost a ∧ a ≠ 0 ∧ n ≠ 0 ∧
    (t.inHostHandler = false → t.sys.space.validate (t.sys.toHost a) n kGuestProtRead = true) := by
  simp only [guestPointer, Sys.guestPointer] at h
  split at h
  · cases h
  next hzero =>
    split at h
    · cases h
    next hvalid =>
      cases h
      refine ⟨rfl, fun ha => hzero (.inl ha), fun hn => hzero (.inr hn), fun hout => ?_⟩
      simpa [hout] using hvalid

section

variable (hs : t.sys.space.ListInv) (hnum : t.sys.Numbered)
  (hm : t.sys.space.validate (t.sys.toHost a) n kGuestProtRead = true)
include hs hnum hm

theorem toNat_toHost (hn : n ≠ 0) :
    (t.sys.toHost a).toNat = a.toNat + t.sys.process.syscalls.guestBase.toNat ∧
    (t.sys.toHost a).toNat + n.toNat < 2 ^ 64 := by
  obtain ⟨hfit, hall⟩ := ((validate_iff hs.committed _ _ _).mp hm).resolve_left hn
  have hpos := toNat_pos hn
  obtain ⟨r, hr, hhas, _⟩ := hall _ le_rfl (by omega)
  have hge := Nat.le_trans (hnum r hr) hhas.1
  refine ⟨?_, hfit⟩
  have ha := toNat_lt_word a
  change (a + t.sys.process.syscalls.guestBase).toNat = _
  change _ ≤ (a + t.sys.process.syscalls.guestBase).toNat at hge
  rw [UInt64.toNat_add] at hge ⊢
  omega

theorem guestPointer_part (hoff : 0 < off.toNat)
    (hlen : 0 < len.toNat) (hin : off.toNat + len.toNat ≤ n.toNat) (writable : Bool) :
    t.guestPointer (a + off) len writable = some (t.sys.toHost a + off) := by
  have hn : n ≠ 0 := ne_zero_of_toNat_pos (by omega)
  obtain ⟨hhost, -⟩ := toNat_toHost hs hnum hm hn
  obtain ⟨_, hall⟩ := ((validate_iff hs.committed _ _ _).mp hm).resolve_left hn
  have hsum : (t.sys.toHost a + off).toNat = (t.sys.toHost a).toNat + off.toNat :=
    toNat_add_of_lt (by omega)
  have hne : ¬ (a + off = 0 ∨ len = 0) := by
    rintro (hz | hz)
    · have hguest : (a + off).toNat = a.toNat + off.toNat := toNat_add_of_lt (by omega)
      rw [hz, UInt64.toNat_zero] at hguest
      omega
    · rw [hz, UInt64.toNat_zero] at hlen
      omega
  have hto : t.sys.toHost (a + off) = t.sys.toHost a + off := by
    simp only [Sys.toHost, LinuxSyscalls.toHost, UInt64.add_assoc, UInt64.add_comm off]
  have hvalid : t.sys.space.validate (t.sys.toHost a + off) len kGuestProtRead = true := by
    rw [validate_iff hs.committed]
    refine .inr ⟨by omega, fun x h1 h2 => hall x (by omega) (by omega)⟩
  simp only [guestPointer, Sys.guestPointer, hto]
  rw [if_neg hne, if_neg (by rw [hvalid]; simp)]

end

/-! ## There and back -/

/-- What a frame is to give back: all registers of the word size, and of an
x86-64 thread the vector and floating-point ones too. -/
structure Restored (narrow : Bool) (state after : GuestCpuState) : Prop where
  gregs : ∀ r : Fin 16, (narrow = true → r.val < 8) → after.gregs r = state.gregs r
  rip : after.rip = state.rip
  eflags : after.eflags = state.eflags
  vectors : narrow = false → after.xmm = state.xmm ∧ after.ymmHigh = state.ymmHigh ∧
    after.mm = state.mm ∧ after.fcw = state.fcw ∧ after.ftw = state.ftw ∧ after.mxcsr = state.mxcsr

structure FitsNarrow (state : GuestCpuState) : Prop where
  gregs : ∀ r : Fin 16, r.val < 8 → (state.gregs r).toNat < 2 ^ 32
  rip : state.rip.toNat < 2 ^ 32

def cut (narrow : Bool) (v : UInt64) : UInt64 := if narrow then v.toUInt32.toUInt64 else v

theorem cut_of_lt (narrow : Bool) {v : UInt64} (hv : v.toNat < 2 ^ 32) : cut narrow v = v := by
  cases narrow with
  | false => rfl
  | true =>
    change v.toUInt32.toUInt64 = v
    rw [← UInt64.toNat_inj, UInt32.toNat_toUInt64]
    exact Nat.mod_eq_of_lt hv

def cutState (narrow : Bool) (state : GuestCpuState) : GuestCpuState :=
  { state with gregs := fun r => cut narrow (state.gregs r), rip := cut narrow state.rip }

theorem Restored.of_cut {narrow : Bool} {state after : GuestCpuState}
    (h : Restored narrow (cutState narrow state) after)
    (hfits : narrow = true → FitsNarrow state) : Restored narrow state after := by
  cases hn : narrow with
  | false =>
    rw [hn] at h
    exact h
  | true =>
    rw [hn] at h
    refine ⟨fun r hlt => ?_, ?_, h.eflags, fun hno => nomatch hno⟩
    · rw [h.gregs r hlt]
      exact cut_of_lt true ((hfits hn).gregs r (hlt rfl))
    · rw [h.rip]
      exact cut_of_lt true (hfits hn).rip

structure AtSigreturn (pushed : GuestThread) (sp size : UInt64) (t : GuestThread) : Prop where
  attached : t.attached = true
  narrow : t.narrow = pushed.narrow
  guestBase : t.sys.process.syscalls.guestBase = pushed.sys.process.syscalls.guestBase
  inv : t.sys.space.ListInv
  numbered : t.sys.Numbered
  mapped : t.sys.space.validate (t.sys.toHost sp) size kGuestProtRead = true
  kept : ∀ x, (t.sys.toHost sp).toNat ≤ x → x < (t.sys.toHost sp).toNat + size.toNat →
    t.sys.host.mem x = pushed.sys.host.mem x
  rsp : t.cpu.gregs kRsp = sp + (if pushed.narrow then 4 else 8)

variable {state handler : GuestCpuState} {signal : Nat} {sender : UInt32} {action : SignalAction}
  {place : FramePlace} {frame : UInt64} {mask : UInt64}

theorem readGregs_reads {h : Host} {uc : UInt64} (t : GuestThread) {fpAddress : UInt64}
    (hr : Reads h.mem frame.toNat (ucFields t state action fpAddress))
    (huc : uc.toNat = frame.toNat + 8) (hfit : frame.toNat + 432 < 2 ^ 64)
    (before : GuestCpuState) :
    (readGregs h uc before).gregs = state.gregs ∧ (readGregs h uc before).rip = state.rip ∧
    (readGregs h uc before).eflags = state.eflags ∧
    h.field64 uc (40 + 23 * 8) = fpAddress ∧ h.field64 uc (40 + 256) = t.signalMask := by
  refine ⟨funext fun r => ?_, ?_, ?_, ?_, ?_⟩
  · have hlt := gregSlot_lt r
    rw [readGregs_gregs]
    exact field64_eq hr (ucFields_gregs t state action fpAddress r) (by omega) (by omega)
  · exact field64_eq hr (List.mem_of_getElem? (i := 21) rfl) (by omega) (by omega)
  · have hmem : ⟨8 + (40 + 17 * 8), 8, state.eflags.toUInt64.toNat⟩ ∈
        ucFields t state action fpAddress := List.mem_of_getElem? (i := 22) rfl
    have hfield : h.field64 uc (40 + 17 * 8) = state.eflags.toUInt64 :=
      field64_eq hr hmem (by omega) (by omega)
    change (h.field64 uc (40 + 17 * 8)).toUInt32 = _
    rw [hfield, UInt32.toUInt32_toUInt64]
  · exact field64_eq hr (List.mem_of_getElem? (i := 25) rfl) (by omega) (by omega)
  · exact field64_eq hr (List.mem_of_getElem? (i := 26) rfl) (by omega) (by omega)

theorem readFx_reads {h : Host} {fp : UInt64} (hfx : Reads h.mem fp.toNat (fxsaveFields state))
    (hxs : Reads h.mem fp.toNat (xstateFields state)) (hfit : fp.toNat + 836 < 2 ^ 64)
    (before : GuestCpuState) : readXstate h fp (readFxsave h fp before) = { before with
        xmm := state.xmm, ymmHigh := state.ymmHigh, mm := state.mm, fcw := state.fcw
        ftw := state.ftw, mxcsr := state.mxcsr } := by
  have hmagic : h.field fp 464 4 = kXstateMagic1 := by
    rw [field_eq 4 (by omega)]
    exact hxs ⟨464, 4, kXstateMagic1⟩ (List.mem_of_getElem? (i := 0) rfl)
  have hbv : h.field64 fp 512 = 7 :=
    field64_eq hxs (List.mem_of_getElem? (i := 4) rfl) rfl (by omega)
  have hymmIn : wideFields 576 state.ymmHigh ⊆ xstateFields state := fun f hf => by
    simp [xstateFields, hf]
  have hmmIn : wideFields 32 state.mm ⊆ fxsaveFields state := fun f hf => by simp [fxsaveFields, hf]
  have hxmmIn : wideFields 160 state.xmm ⊆ fxsaveFields state := fun f hf => by
    simp [fxsaveFields, hf]
  have hymm : h.wideRegs fp 576 16 = state.ymmHigh := wideRegs_eq hxs hymmIn rfl (by omega)
  have hmm : h.wideRegs fp 32 8 = state.mm := wideRegs_eq hfx hmmIn rfl (by omega)
  have hxmm : h.wideRegs fp 160 16 = state.xmm := wideRegs_eq hfx hxmmIn rfl (by omega)
  have hmxcsr : h.field32 fp 24 = state.mxcsr := by
    rw [field32_eq hfx (List.mem_of_getElem? (i := 3) rfl) rfl (by omega)]
    exact UInt32.ofNat_toNat
  have hfcw : UInt16.ofNat (h.field fp 0 2) = state.fcw := by
    rw [field_eq 2 (by omega), hfx ⟨0, 2, state.fcw.toNat⟩ (List.mem_of_getElem? (i := 0) rfl),
      show state.fcw.toNat % 256 ^ 2 = state.fcw.toNat from Nat.mod_eq_of_lt state.fcw.toNat_lt]
    exact UInt16.ofNat_toNat
  have hftw : UInt8.ofNat (h.field fp 4 1) = state.ftw := by
    rw [field_eq 1 (by omega), hfx ⟨4, 1, state.ftw.toNat⟩ (List.mem_of_getElem? (i := 2) rfl),
      show state.ftw.toNat % 256 ^ 1 = state.ftw.toNat from Nat.mod_eq_of_lt state.ftw.toNat_lt]
    exact UInt8.ofNat_toNat
  simp only [readXstate, hmagic, hbv, hymm, readFxsave, hmm, hxmm, hmxcsr, hfcw, hftw]
  rfl

theorem readSc_reads {h : Host} {uc : UInt64} (t : GuestThread)
    (hr : Reads h.mem uc.toNat (narrowUcFields t state)) (hfit : uc.toNat + 116 < 2 ^ 64)
    (before : GuestCpuState) :
    (∀ r : Fin 16, r.val < 8 → (readSc h uc before).gregs r = cut true (state.gregs r)) ∧
    (readSc h uc before).rip = cut true state.rip ∧
    (readSc h uc before).eflags = state.eflags ∧ h.field64 uc 108 = t.signalMask := by
  refine ⟨fun r hlt => ?_, ?_, ?_, ?_⟩
  · have hslot : scSlot ⟨r.val, hlt⟩ ≤ 11 := Nat.sub_le _ _
    have hread := readSc_gregs h uc before ⟨r.val, hlt⟩
    rw [field32_eq hr (narrowUcFields_gregs t state ⟨r.val, hlt⟩) rfl (by omega)] at hread
    exact hread
  · change (h.field32 uc (20 + 14 * 4)).toUInt64 = _
    rw [field32_eq hr (List.mem_of_getElem? (i := 15) rfl) rfl (by omega)]
    rfl
  · change h.field32 uc (20 + 16 * 4) = _
    rw [field32_eq hr (List.mem_of_getElem? (i := 17) rfl) rfl (by omega)]
    exact UInt32.ofNat_toNat
  · exact field64_eq hr (List.mem_of_getElem? (i := 21) rfl) rfl (by omega)

variable {t₁ t₂ : GuestThread}

theorem pushSignalFrame_some
    (hpush : t.pushSignalFrame state signal sender action = (some handler, t₁)) :
    let place := t.placeFor state action
    handler = t.handlerRegisters state signal action place ∧
      t₁.sys.process = t.sys.process ∧ t₁.attached = t.attached ∧
      t₁.sys.host = t.writeFrame state signal sender action place (t.sys.toHost place.handlerSp) ∧
      place.size ≠ 0 ∧
      (t.inHostHandler = false →
        t.sys.space.validate (t.sys.toHost place.handlerSp) place.size kGuestProtRead = true) := by
  rw [pushSignalFrame] at hpush
  split at hpush
  · cases hpush
  next frame hptr =>
    obtain ⟨hframe, -, hsize, hvalid⟩ := guestPointer_eq_some hptr
    cases hpush
    exact ⟨rfl, rfl, rfl, by rw [hframe]; rfl, hsize, hvalid⟩

theorem doRtSigreturn_eq (hat : t.attached = true) {after : GuestCpuState}
    (hread : t.readFrame t.cpu = some (after, mask)) : t.doRtSigreturn = (after.gregs kRax, { t with
        signalMask := mask &&& ~~~(signalBit kSigkill ||| signalBit kSigstop)
        cpu := { after with fsBase := t.cpu.fsBase, gsBase := t.cpu.gsBase }
        ripPlaced := true }) := by
  simp [doRtSigreturn, captureCpuState, restoreCpuState, restoredTo, hat, hread]

theorem placeFor_wide (hn : t.narrow = false) (state : GuestCpuState) (action : SignalAction) :
    let place := t.placeFor state action
    place.ucAddress = place.handlerSp + 8 ∧ place.infoAddress = place.handlerSp + 432 ∧
      place.fpAddress = place.handlerSp + 568 ∧ place.size = 1404 ∧ 64 ∣ place.fpAddress.toNat := by
  rw [placeFor, hn]
  exact framePlace_wide _ _

theorem placeFor_narrow (hn : t.narrow = true) (state : GuestCpuState) (action : SignalAction) :
    let place := t.placeFor state action
    place.infoAddress = place.handlerSp + 16 ∧ place.ucAddress = place.handlerSp + 144 ∧
      place.size = 268 := by
  rw [placeFor, hn]
  exact framePlace_narrow _ _

theorem AtSigreturn.toHost_eq (hat : AtSigreturn t₁ a n t₂) (hprocess : t₁.sys.process =
    t.sys.process) (a : UInt64) : t₂.sys.toHost a = t.sys.toHost a := by
  simp only [Sys.toHost, LinuxSyscalls.toHost, hat.guestBase, hprocess]

theorem readFrame_wide {sp : UInt64} (t : GuestThread) (hn : t₂.narrow = false)
    (hs : t₂.sys.space.ListInv) (hnum : t₂.sys.Numbered)
    (hm : t₂.sys.space.validate (t₂.sys.toHost sp) 1404 kGuestProtRead = true)
    (hrsp : t₂.cpu.gregs kRsp = sp + 8)
    (huc : Reads t₂.sys.host.mem (t₂.sys.toHost sp).toNat (ucFields t state action (sp + 568)))
    (hfx : Reads t₂.sys.host.mem ((t₂.sys.toHost sp).toNat + 568) (fxsaveFields state))
    (hxs : Reads t₂.sys.host.mem ((t₂.sys.toHost sp).toNat + 568) (xstateFields state)) :
    ∃ after, t₂.readFrame t₂.cpu = some (after, t.signalMask) ∧ Restored false state after := by
  have hfit : (t₂.sys.toHost sp).toNat + 1404 < 2 ^ 64 := (toNat_toHost hs hnum hm (by decide)).2
  have hat : ∀ off : UInt64, off.toNat < 1404 →
      (t₂.sys.toHost sp + off).toNat = (t₂.sys.toHost sp).toNat + off.toNat :=
    fun off hoff => toNat_add_of_lt (by omega)
  have hptr : t₂.guestPointer (sp + 8) 424 false = some (t₂.sys.toHost sp + 8) :=
    guestPointer_part hs hnum hm (by decide) (by decide) (by decide) false
  have hptrFx : t₂.guestPointer (sp + 568) 512 false = some (t₂.sys.toHost sp + 568) :=
    guestPointer_part hs hnum hm (by decide) (by decide) (by decide) false
  have hptrXs : t₂.guestPointer (sp + 568) kXstateFrameSize false = some (t₂.sys.toHost sp + 568) :=
    guestPointer_part hs hnum hm (by decide) (by decide) (by decide) false
  have hne : sp + 568 ≠ 0 := (guestPointer_eq_some hptrFx).2.1
  have hfpNat : (t₂.sys.toHost sp + 568).toNat = (t₂.sys.toHost sp).toNat + 568 :=
    hat 568 (by decide)
  rw [← hfpNat] at hfx hxs
  obtain ⟨hgregs, hrip, heflags, hfp, hmask⟩ :=
    readGregs_reads t huc (hat 8 (by decide)) (by omega) t₂.cpu
  have hrest := readFx_reads hfx hxs (by omega)
    (readGregs t₂.sys.host (t₂.sys.toHost sp + 8) t₂.cpu)
  have hread : t₂.readFrame t₂.cpu = some (readXstate t₂.sys.host (t₂.sys.toHost sp + 568)
      (readFxsave t₂.sys.host (t₂.sys.toHost sp + 568)
        (readGregs t₂.sys.host (t₂.sys.toHost sp + 8) t₂.cpu)), t.signalMask) := by
    simp [readFrame, hn, hrsp, hptr, hfp, hmask, readFpregs, hne, hptrFx, hptrXs]
  rw [hrest] at hread
  exact ⟨_, hread, fun r _ => congrFun hgregs r, hrip, heflags,
    fun _ => ⟨rfl, rfl, rfl, rfl, rfl, rfl⟩⟩

theorem readFrame_narrow {sp : UInt64} (t : GuestThread) (hn : t₂.narrow = true)
    (hs : t₂.sys.space.ListInv) (hnum : t₂.sys.Numbered)
    (hm : t₂.sys.space.validate (t₂.sys.toHost sp) 268 kGuestProtRead = true)
    (hrsp : t₂.cpu.gregs kRsp = sp + 4)
    (huc : Reads t₂.sys.host.mem ((t₂.sys.toHost sp).toNat + 144) (narrowUcFields t state)) :
    ∃ after, t₂.readFrame t₂.cpu = some (after, t.signalMask) ∧
    Restored true (cutState true state) after := by
  have hfit : (t₂.sys.toHost sp).toNat + 268 < 2 ^ 64 := (toNat_toHost hs hnum hm (by decide)).2
  have hptr : t₂.guestPointer (sp + 144) 116 false = some (t₂.sys.toHost sp + 144) :=
    guestPointer_part hs hnum hm (by decide) (by decide) (by decide) false
  have huc' : (t₂.sys.toHost sp + 144).toNat = (t₂.sys.toHost sp).toNat + 144 :=
    toNat_add_of_lt (by change _ + 144 < _; omega)
  have haddr : sp + 4 - 4 + 16 + 128 = sp + 144 := by
    rw [UInt64.add_sub_cancel, UInt64.add_assoc]
    rfl
  rw [← huc'] at huc
  obtain ⟨hgregs, hrip, heflags, hmask⟩ := readSc_reads t huc (by omega) t₂.cpu
  have hread : t₂.readFrame t₂.cpu =
      some (readSc t₂.sys.host (t₂.sys.toHost sp + 144) t₂.cpu, t.signalMask) := by
    simp only [readFrame, hn, Bool.not_true, Bool.false_eq_true, if_false, hrsp, haddr, hptr, hmask]
  exact ⟨_, hread, fun r hlt => hgregs r (hlt rfl), hrip, heflags, fun hno => nomatch hno⟩

theorem AtSigreturn.readFrame
    (hpush : t.pushSignalFrame state signal sender action = (some handler, t₁))
    (hat : AtSigreturn t₁ (t.placeFor state action).handlerSp (t.placeFor state action).size t₂) :
    ∃ after, t₂.readFrame t₂.cpu = some (after, t.signalMask) ∧
    Restored t.narrow (cutState t.narrow state) after := by
  obtain ⟨-, hprocess, -, hhost, hsize, -⟩ := pushSignalFrame_some hpush
  have hn₁ : t₁.narrow = t.narrow := congrArg (·.syscalls.guestIs32bit) hprocess
  have hn₂ : t₂.narrow = t.narrow := by rw [hat.narrow, hn₁]
  have hfit := (toNat_toHost hat.inv hat.numbered hat.mapped hsize).2
  have hmapped := hat.mapped
  have hkept := hat.kept
  have hrsp := hat.rsp
  have hto := hat.toHost_eq hprocess (t.placeFor state action).handlerSp
  rw [hhost] at hkept
  rw [hn₁] at hrsp
  cases hn : t.narrow with
  | false =>
    obtain ⟨-, hinfo, hfp, hlen, -⟩ := placeFor_wide hn state action
    rw [hn] at hn₂ hrsp
    rw [hlen] at hmapped hfit hkept
    change ∀ x, _ → x < _ + 1404 → _ at hkept
    rw [hto] at hfit
    obtain ⟨huc, hfx, hxs⟩ := writeFrame_wide state signal sender action hn hinfo hfp hfit
    rw [← hto] at huc hfx hxs hkept hfit
    rw [hfp] at huc
    have huc₂ := huc.congr (ascending_uc t state action _) fun x _ _ =>
      hkept x (by omega) (by omega)
    have hfx₂ := hfx.congr (ascending_fxsave state) fun x _ _ => hkept x (by omega) (by omega)
    have hxs₂ := hxs.congr (ascending_xstate state) fun x _ _ => hkept x (by omega) (by omega)
    exact readFrame_wide t hn₂ hat.inv hat.numbered hmapped hrsp huc₂ hfx₂ hxs₂
  | true =>
    obtain ⟨-, -, hlen⟩ := placeFor_narrow hn state action
    rw [hn] at hn₂ hrsp
    rw [hlen] at hmapped hfit hkept
    change ∀ x, _ → x < _ + 268 → _ at hkept
    rw [hto] at hfit
    have hreads := writeFrame_narrow state signal sender action (t.placeFor state action) hn hfit
    have huc := hreads.2
    rw [← hto] at huc hkept hfit
    refine readFrame_narrow t hn₂ hat.inv hat.numbered hmapped hrsp ?_
    exact huc.congr (ascending_narrowUc t state) fun x h1 h2 => hkept x (by omega) (by omega)

def areas (narrow : Bool) (place : FramePlace) : List (Nat × Nat) :=
  if narrow then
    [(place.handlerSp.toNat, 4), (place.infoAddress.toNat, 128), (place.ucAddress.toNat, 116)]
  else
    [(place.handlerSp.toNat, 8), (place.ucAddress.toNat, 424), (place.infoAddress.toNat, 128),
      (place.fpAddress.toNat, kXstateFrameSize.toNat)]

theorem areas_apart (t : GuestThread) (state : GuestCpuState) (action : SignalAction)
    (hfit : (t.placeFor state action).handlerSp.toNat +
      (t.placeFor state action).size.toNat < 2 ^ 64) :
    let place := t.placeFor state action
    (areas t.narrow place).Pairwise (fun a b => a.1 + a.2 ≤ b.1) ∧
      ∀ area ∈ areas t.narrow place, place.handlerSp.toNat ≤ area.1 ∧
        area.1 + area.2 ≤ place.handlerSp.toNat + place.size.toNat := by
  intro place
  have hat : ∀ off : UInt64, off.toNat ≤ place.size.toNat →
      (place.handlerSp + off).toNat = place.handlerSp.toNat + off.toNat := fun off hoff =>
    toNat_add_of_lt (Nat.lt_of_le_of_lt (Nat.add_le_add_left hoff _) hfit)
  cases hn : t.narrow with
  | false =>
    obtain ⟨huc, hinfo, hfp, hlen, -⟩ := placeFor_wide hn state action
    have hlen' : place.size.toNat = 1404 := congrArg UInt64.toNat hlen
    have h8 : place.ucAddress.toNat = place.handlerSp.toNat + 8 := by
      rw [huc]
      exact hat 8 (by rw [hlen]; decide)
    have h432 : place.infoAddress.toNat = place.handlerSp.toNat + 432 := by
      rw [hinfo]
      exact hat 432 (by rw [hlen]; decide)
    have h568 : place.fpAddress.toNat = place.handlerSp.toNat + 568 := by
      rw [hfp]
      exact hat 568 (by rw [hlen]; decide)
    have hxs : kXstateFrameSize.toNat = 836 := rfl
    simp only [areas, h8, h432, h568, hlen', hxs]
    simp
  | true =>
    obtain ⟨hinfo, huc, hlen⟩ := placeFor_narrow hn state action
    have hlen' : place.size.toNat = 268 := congrArg UInt64.toNat hlen
    have h16 : place.infoAddress.toNat = place.handlerSp.toNat + 16 := by
      rw [hinfo]
      exact hat 16 (by rw [hlen]; decide)
    have h144 : place.ucAddress.toNat = place.handlerSp.toNat + 144 := by
      rw [huc]
      exact hat 144 (by rw [hlen]; decide)
    simp only [areas, h16, h144, hlen']
    simp

theorem returnAddress (hpush : t.pushSignalFrame state signal sender action = (some handler, t₁))
    (hfit : (t.sys.toHost (t.placeFor state action).handlerSp).toNat +
      (t.placeFor state action).size.toNat < 2 ^ 64) :
    number t₁.sys.host.mem (if t.narrow then 4 else 8)
        (t.sys.toHost (t.placeFor state action).handlerSp).toNat =
      action.restorer.toNat % 256 ^ (if t.narrow then 4 else 8) := by
  obtain ⟨-, -, -, hhost, -, -⟩ := pushSignalFrame_some hpush
  rw [hhost]
  cases hn : t.narrow with
  | false =>
    obtain ⟨-, hinfo, hfp, hlen, -⟩ := placeFor_wide hn state action
    rw [hlen] at hfit
    have hreads := writeFrame_wide state signal sender action hn hinfo hfp hfit
    exact hreads.1 ⟨0, 8, action.restorer.toNat⟩ (List.mem_of_getElem? (i := 0) rfl)
  | true =>
    obtain ⟨-, -, hlen⟩ := placeFor_narrow hn state action
    rw [hlen] at hfit
    exact (writeFrame_narrow state signal sender action _ hn hfit).1 ⟨0, 4, action.restorer.toNat⟩
      (List.mem_of_getElem? (i := 0) rfl)

theorem handlerRegisters_rsp (t : GuestThread) (state : GuestCpuState) (signal : Nat)
    (action : SignalAction) (place : FramePlace) :
    (t.handlerRegisters state signal action place).gregs kRsp = place.handlerSp := by
  rw [handlerRegisters]
  split
  · rfl
  · rfl

theorem atSigreturn_returned (hs : t.sys.space.ListInv) (hnum : t.sys.Numbered)
    (hin : t.inHostHandler = false) (hat : t.attached = true)
    (hpush : t.pushSignalFrame state signal sender action = (some handler, t₁))
    (regs : GuestCpuState) :
    AtSigreturn t₁ (t.placeFor state action).handlerSp (t.placeFor state action).size
      { t₁ with cpu := regs.set kRsp ((t.placeFor state action).handlerSp +
        (if t.narrow then 4 else 8)) } := by
  obtain ⟨-, hprocess, hatt, -, -, hvalid⟩ := pushSignalFrame_some hpush
  have hspace : t₁.sys.space = t.sys.space := congrArg GuestProcess.space hprocess
  have hn : t₁.narrow = t.narrow := congrArg (·.syscalls.guestIs32bit) hprocess
  have hto : ∀ a, t₁.sys.toHost a = t.sys.toHost a := fun a =>
    congrArg (fun p : GuestProcess => p.syscalls.toHost a) hprocess
  exact
    { attached := by rw [← hat, ← hatt]
      narrow := rfl
      guestBase := rfl
      inv := by
        rw [hspace]
        exact hs
      numbered := by
        rw [Sys.Numbered, hspace, hprocess]
        exact hnum
      mapped := by
        rw [hspace, hto]
        exact hvalid hin
      kept := fun _ _ _ => rfl
      rsp := by rw [hn]; rfl }

/-- A handler starts with its stack pointer at the frame, the frame's parts lie
apart, and `rt_sigreturn` puts back what was interrupted. In the host's handler
the stack is not checked and is taken to be mapped. -/
theorem pushSignalFrame_restores (hs : t.sys.space.ListInv) (hnum : t.sys.Numbered)
    (hstack : t.inHostHandler = true → t.sys.space.validate
      (t.sys.toHost (t.placeFor state action).handlerSp) (t.placeFor state action).size
      kGuestProtRead = true) (hfits : t.narrow = true → FitsNarrow state)
    (hpush : t.pushSignalFrame state signal sender action = (some handler, t₁)) :
    let place := t.placeFor state action
    (handler.gregs kRsp = place.handlerSp ∧ handler.rip = action.handler ∧
      number t₁.sys.host.mem (if t.narrow then 4 else 8) (t.sys.toHost place.handlerSp).toNat =
        action.restorer.toNat % 256 ^ (if t.narrow then 4 else 8)) ∧
    ((areas t.narrow place).Pairwise (fun a b => a.1 + a.2 ≤ b.1) ∧
      (∀ area ∈ areas t.narrow place, place.handlerSp.toNat ≤ area.1 ∧
        area.1 + area.2 ≤ place.handlerSp.toNat + place.size.toNat) ∧
      (t.narrow = false → 64 ∣ place.fpAddress.toNat)) ∧
    ∀ t₂, AtSigreturn t₁ place.handlerSp place.size t₂ → t₂.doRtSigreturn.1 = state.gregs kRax ∧
      Restored t.narrow state t₂.doRtSigreturn.2.cpu ∧
      t₂.doRtSigreturn.2.signalMask =
        t.signalMask &&& ~~~(signalBit kSigkill ||| signalBit kSigstop) := by
  intro place
  obtain ⟨hhandler, -, -, -, hsize, hvalid⟩ := pushSignalFrame_some hpush
  have hmapped : t.sys.space.validate (t.sys.toHost place.handlerSp) place.size kGuestProtRead =
      true := by
    cases hin : t.inHostHandler with
    | false => exact hvalid hin
    | true => exact hstack hin
  obtain ⟨hhost, hfit⟩ := toNat_toHost hs hnum hmapped hsize
  have hroom : place.handlerSp.toNat + place.size.toNat < 2 ^ 64 := by omega
  obtain ⟨hpair, hwithin⟩ := areas_apart t state action hroom
  refine ⟨⟨?_, ?_, returnAddress hpush hfit⟩, ⟨hpair, hwithin, ?_⟩, ?_⟩
  · rw [hhandler]
    exact handlerRegisters_rsp t state signal action place
  · rw [hhandler]
    rfl
  · exact fun hn => (placeFor_wide hn state action).2.2.2.2
  · intro t₂ hat
    obtain ⟨_, hread, hcut⟩ := hat.readFrame hpush
    have hrest := hcut.of_cut hfits
    rw [doRtSigreturn_eq hat.attached hread]
    refine ⟨hrest.gregs kRax fun _ => by decide, ?_, rfl⟩
    exact ⟨hrest.gregs, hrest.rip, hrest.eflags, hrest.vectors⟩

/-- A thread in the middle of its stack, and the registers it has there. -/
def midway : GuestCpuState :=
  { gregs := fun r => if r = kRsp then 0x100013000 else 5
    rip := 0x100010040
    eflags := 0x246
    mxcsr := 0x1f80
    fsBase := 0
    gsBase := 0
    xmm := fun _ => (1, 2)
    ymmHigh := fun _ => (3, 4)
    mm := fun _ => (5, 6)
    fcw := 0x37f
    ftw := 0xff }

def running : GuestThread :=
  { sys := ⟨⟨false, 0, onePage.space, LinuxSyscalls.new false 0, LinuxSyscalls.new_agrees⟩,
      SharedTable.empty, onePage.host⟩
    attached := true
    cpu := midway
    pid := 1
    pendingSignals := 0
    signalSenders := fun _ => 1
    signalMask := 0
    signalActions := fun _ => SignalAction.none
    altstackSp := 0
    altstackSize := 0
    altstackDisabled := true
    ripPlaced := false
    inHostHandler := false }

theorem listInv_running : running.sys.space.ListInv := listInv_onePage

theorem numbered_running : running.sys.Numbered := fun _ _ => Nat.zero_le _

def usr1 : SignalAction := ⟨0x100010200, 0, 0x100010300, 0⟩

theorem pushSignalFrame_restores_running : ∃ t₂ : GuestThread, t₂.cpu.gregs kRax = 9 ∧
    t₂.doRtSigreturn.1 = 5 ∧ Restored false midway t₂.doRtSigreturn.2.cpu := by
  have hsome : (running.pushSignalFrame midway 10 1 usr1).1.isSome = true := by decide
  obtain ⟨handler, hhandler⟩ := Option.isSome_iff_exists.mp hsome
  have hpush : running.pushSignalFrame midway 10 1 usr1 =
      (some handler, (running.pushSignalFrame midway 10 1 usr1).2) := Prod.ext hhandler rfl
  have hat := atSigreturn_returned listInv_running numbered_running rfl rfl hpush
    { midway with gregs := fun _ => 9 }
  obtain ⟨-, -, hback⟩ := pushSignalFrame_restores listInv_running numbered_running
    (fun hin => nomatch hin) (fun hn => nomatch hn) hpush
  obtain ⟨hrax, hrest, -⟩ := hback _ hat
  exact ⟨_, rfl, hrax, hrest⟩

end GuestThread

end Fathom
