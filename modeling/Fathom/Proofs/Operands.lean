import Fathom.Runtime.Operands
import Mathlib.Tactic.SplitIfs

/-!
# What an operand read without its sign or its upper half costs

Each result says for which operands the code and Linux agree: those whose lost bits are what
the code fills in, or do not show.
-/

namespace Fathom

theorem setWidth_eq_signExtend_iff {v w : Nat} (h : v < w) (n : BitVec v) :
    n.setWidth w = n.signExtend w ↔ n.msb = false := by
  refine ⟨fun heq => ?_, fun hm => (BitVec.signExtend_eq_setWidth_of_msb_false hm).symm⟩
  have hbit := congrArg (BitVec.getLsbD · v) heq
  simpa only [BitVec.getLsbD_setWidth, BitVec.getLsbD_signExtend, BitVec.getLsbD_of_ge _ _
    (Nat.le_refl v), h, Nat.lt_irrefl, if_false, decide_true, Bool.true_and] using hbit.symm

namespace WakeOp

variable (o : WakeOp) (previous : BitVec 32)

/-- A negative operand is stored as Linux stores it only where its upper bits do not show. -/
def StoresAlike : Prop :=
  o.code.toNat ≤ 4 ∧ (o.shift = true ∨ o.operand.msb = false ∨
    (o.code.toNat = 2 ∧ ∀ i < 32, 12 ≤ i → previous.getLsbD i = true) ∨
    (o.code.toNat = 3 ∧ ∀ i < 32, 12 ≤ i → previous.getLsbD i = false))

/-- A negative argument is among the largest words for Linux; for the code it is its 12 bits.
The two compare alike with a word on the same side of both. -/
def ComparesAlike : Prop :=
  let p := previous.toNat
  let a := o.against.toNat
  let high := 0xFFFFF000 + a
  match o.comparison.toNat with
  | 0 | 1 => a < 2048 ∨ (p ≠ a ∧ p ≠ high)
  | 2 | 5 => if a < 2048 then p < 0x80000000 else if p < 0x80000000 then a ≤ p else high ≤ p
  | 3 | 4 => if a < 2048 then p < 0x80000000 else if p < 0x80000000 then a < p else high < p
  | _ => False

theorem getLsbD_signExtend_operand {i : Nat} (hi : i < 32) : (o.operand.signExtend 32).getLsbD i =
      ((o.operand.setWidth 32).getLsbD i || (decide (12 ≤ i) && o.operand.msb)) := by
  simp only [BitVec.getLsbD_signExtend, BitVec.getLsbD_setWidth, hi, decide_true]
  by_cases h : i < 12
  · simp [Nat.not_le.mpr h]
  · simp [Nat.not_lt.mp h]

theorem getLsbD_setWidth_operand {i : Nat} (hi : 12 ≤ i) :
    (o.operand.setWidth 32).getLsbD i = false := by
  simp [BitVec.getLsbD_of_ge _ _ hi]

/-- Two words that differ at most in the bits from the twelfth on. -/
theorem extended_iff (hm : o.operand.msb = true) (f : Bool → Bool → Bool)
    {g : BitVec 32 → BitVec 32} (hg : ∀ v i, i < 32 → (g v).getLsbD i =
      f (previous.getLsbD i) (v.getLsbD i)) :
    g (o.operand.setWidth 32) = g (o.operand.signExtend 32) ↔
      ∀ i < 32, 12 ≤ i → f (previous.getLsbD i) false = f (previous.getLsbD i) true := by
  refine ⟨fun h i hi h12 => ?_, fun h => BitVec.eq_of_getLsbD_eq fun i hi => ?_⟩
  · have hbit := congrArg (BitVec.getLsbD · i) h
    simpa only [hg _ i hi, o.getLsbD_signExtend_operand hi, o.getLsbD_setWidth_operand h12, h12,
      hm, decide_true, Bool.true_and, Bool.false_or] using hbit
  · rw [hg _ _ hi, hg _ _ hi, o.getLsbD_signExtend_operand hi]
    by_cases h12 : 12 ≤ i
    · simpa [h12, hm] using h i hi h12
    · simp [h12]

theorem futexOp_extended_iff {code : Nat} (hc : code ≤ 4) :
    futexOp code previous (o.operand.setWidth 32) =
      futexOp code previous (o.operand.signExtend 32) ↔ o.operand.msb = false ∨
        (code = 2 ∧ ∀ i < 32, 12 ≤ i → previous.getLsbD i = true) ∨
        (code = 3 ∧ ∀ i < 32, 12 ≤ i → previous.getLsbD i = false) := by
  cases hm : o.operand.msb with
  | false => simp [BitVec.signExtend_eq_setWidth_of_msb_false hm]
  | true =>
    have hdiffer : o.operand.setWidth 32 ≠ o.operand.signExtend 32 := by
      simp [setWidth_eq_signExtend_iff, hm]
    match code, hc with
    | 0, _ => simp [futexOp, hdiffer]
    | 1, _ => simp [futexOp, hdiffer]
    | 2, _ => simp [futexOp, o.extended_iff previous hm or]
    | 3, _ =>
      have h := o.extended_iff previous hm (fun b v => b && !v) (g := fun v => previous &&& ~~~v)
        fun v i hi => by simp [hi]
      simpa [futexOp] using h
    | 4, _ => simp [futexOp, hdiffer]

theorem comparesAlike_iff : futexCompare o.comparison.toNat previous.toInt o.against.toInt =
      some ((futexCompare o.comparison.toNat previous.toNat o.against.toNat).getD false) ↔
      o.ComparesAlike previous := by
  have hp := previous.isLt
  have ha := o.against.isLt
  have hword := previous.toInt_eq_toNat_cond
  have hargument := o.against.toInt_eq_toNat_cond
  rw [ComparesAlike]
  generalize previous.toInt = word, o.against.toInt = argument, previous.toNat = p,
    o.against.toNat = a at *
  match o.comparison.toNat with
  | 0 | 1 =>
    simp only [futexCompare, Option.getD_some, Option.some.injEq, decide_eq_decide]
    omega
  | 2 | 3 | 4 | 5 =>
    simp only [futexCompare, Option.getD_some, Option.some.injEq, decide_eq_decide]
    -- by the signs of the word and of the argument
    split_ifs at hword hargument ⊢ <;> omega
  | _ + 6 => simp [futexCompare]

theorem futexOp_known {code : Nat} (hc : code ≤ 4) (operand : BitVec 32) :
    ∃ stored, futexOp code previous operand = some stored := by
  match code, hc with
  | 0, _ | 1, _ | 2, _ | 3, _ | 4, _ => exact ⟨_, rfl⟩

theorem futexOp_word_iff (hc : o.code.toNat ≤ 4) :
    futexOp o.code.toNat previous (o.word (o.operand.setWidth 32)) =
      futexOp o.code.toNat previous (o.word (o.operand.signExtend 32)) ↔
      o.StoresAlike previous := by
  rw [StoresAlike, ← o.futexOp_extended_iff previous hc]
  cases hs : o.shift with
  | true => simp [word, hs, hc]
  | false => simp [word, hs, hc]

/-- The word stored, who is woken and the error are Linux's exactly where the operand's and
the argument's signs make no difference, and both codes are known. -/
theorem wakeOp_eq_kernel_iff (encoded : BitVec 32) :
    (decode encoded).wakeOp previous = (decode encoded).kernelWakeOp previous ↔
    (decode encoded).StoresAlike previous ∧ (decode encoded).ComparesAlike previous := by
  generalize decode encoded = o
  rw [← comparesAlike_iff, wakeOp, kernelWakeOp]
  by_cases hc : o.code.toNat ≤ 4
  · rw [← o.futexOp_word_iff previous hc]
    obtain ⟨_, hz⟩ := futexOp_known previous hc (o.word (o.operand.setWidth 32))
    obtain ⟨_, hs⟩ := futexOp_known previous hc (o.word (o.operand.signExtend 32))
    rw [hz, hs]
    simp only [Prod.mk.injEq, Option.some.injEq]
    exact and_congr_right fun _ => eq_comm
  · have hnone : futexOp o.code.toNat previous (o.word (o.operand.signExtend 32)) = none := by
      unfold futexOp
      split <;> simp_all
    simp [hnone, StoresAlike, hc]

/-- `SET 0x800`: Linux stores -2048. -/
theorem wakeOp_drops_sign : (decode 0x00800000).wakeOp 0 = (0x800, some true) ∧
      (decode 0x00800000).kernelWakeOp 0 = (0xFFFFF800, some true) := by
  decide

end WakeOp

namespace FileLookup

variable (w : FileLookup) (number : Nat) (r1 r2 r3 r4 r5 r6 : BitVec 32)

/-- What a call of an i386 guest comes to. -/
def call32 : Option FileRequest :=
  (fileCallForI386 number).map fun call =>
    w.dispatch call (r1.setWidth 64) (r2.setWidth 64) (r3.setWidth 64) (r4.setWidth 64)

/-- What it would come to with its offset and length joined. -/
def joined32 : Option FileRequest :=
  (fileCallForI386 number).map fun
    | .transfer reads =>
      w.dispatch (.transfer reads) (r1.setWidth 64) (r2.setWidth 64) (r3.setWidth 64) (r5 ++ r4)
    | .ftruncate => w.dispatch .ftruncate (r1.setWidth 64) (r3 ++ r2) 0 0
    | .fallocate => w.dispatch .fallocate (r1.setWidth 64) (r2.setWidth 64) (r4 ++ r3) (r6 ++ r5)

/-- The upper half of the offset is zero, or the call never comes to use it. -/
def OffsetsKept (call : FileCall) : Prop :=
  ∀ hostFd, w.findFile (r1.setWidth 64) = some hostFd →
  match call with
  | .transfer reads => w.guestPointer (r2.setWidth 64) (r3.setWidth 64) reads = true → r5 = 0
  | .ftruncate => r3 = 0
  | .fallocate => ∀ size, w.fstat hostFd = .ok size → r2.setWidth 64 &&& 1 = (0 : BitVec 64) →
  let summed := r3.setWidth 64 + r4.setWidth 64
  let wanted : BitVec 64 := (r4 ++ r3) + (r6 ++ r5)
  summed = wanted ∨ (summed ≤ size ∧ wanted ≤ size)

theorem setWidth_eq_append_iff (high low : BitVec 32) :
    low.setWidth 64 = high ++ low ↔ high = 0 := by
  have hlow := low.isLt
  rw [← BitVec.toNat_inj, ← BitVec.toNat_inj, BitVec.toNat_append,
    ← Nat.shiftLeft_add_eq_or_of_lt hlow, BitVec.toNat_setWidth]
  simp only [BitVec.ofNat_eq_ofNat, BitVec.toNat_ofNat]
  omega

theorem llseekOffset_eq (high low : BitVec 32) : llseekOffset high low = high ++ low := by
  refine BitVec.eq_of_getLsbD_eq fun i hi => ?_
  simp only [llseekOffset, BitVec.getLsbD_or, BitVec.getLsbD_shiftLeft,
    BitVec.getLsbD_signExtend, BitVec.getLsbD_append]
  by_cases h : i < 32
  · simp [h, hi]
  · simp [hi, show i - 32 < 32 by omega, show i - 32 < 64 by omega,
      Nat.not_lt.mp h]

theorem grow_eq_iff (hostFd : Int) {mode size summed wanted : BitVec 64} :
    (if mode = 0 ∧ size < summed then FileRequest.ftruncate hostFd summed else .returns 0) =
      (if mode = 0 ∧ size < wanted then .ftruncate hostFd wanted else .returns 0) ↔
    (mode = 0 → summed = wanted ∨ (summed ≤ size ∧ wanted ≤ size)) := by
  by_cases hmode : mode = 0
  · split_ifs <;> grind
  · simp only [hmode, false_and, if_false, false_implies]

/-- `_llseek` joins its halves. The other calls act on the offset exactly where its upper
half is zero, or does not come to be used. -/
theorem offsets_kept_iff : (∀ high low, llseekOffset high low = high ++ low) ∧
    (w.call32 number r1 r2 r3 r4 = w.joined32 number r1 r2 r3 r4 r5 r6 ↔
      ∀ call, fileCallForI386 number = some call → w.OffsetsKept r1 r2 r3 r4 r5 r6 call) := by
  refine ⟨llseekOffset_eq, ?_⟩
  unfold call32 joined32
  cases fileCallForI386 number with
  | none => simp
  | some call =>
    simp only [Option.map_some, OffsetsKept]
    cases hf : w.findFile (r1.setWidth 64) with
    | none => cases call <;> simp [dispatch, hf]
    | some hostFd =>
      cases call with
      | transfer _ =>
        simp only [dispatch, hf, ← setWidth_eq_append_iff r5 r4]
        split_ifs with hp <;> simp [hp]
      | ftruncate => simp [dispatch, hf, setWidth_eq_append_iff]
      | fallocate =>
        cases hs : w.fstat hostFd with
        | error e => simp [dispatch, hf, hs]
        | ok _ =>
          simp only [dispatch, hf, hs, Option.some.injEq, Except.ok.injEq, forall_eq']
          exact grow_eq_iff hostFd

/-- `pread64` at 4 GiB reads at 0. -/
theorem pread64_at_zero : call32 ⟨fun _ _ _ => true, fun _ => some 3, fun _ => .ok 0⟩ 180 3 0 1 0 =
        some (.transfer true 3 0 1 0) ∧
      joined32 ⟨fun _ _ _ => true, fun _ => some 3, fun _ => .ok 0⟩ 180 3 0 1 0 1 0 =
        some (.transfer true 3 0 1 0x100000000) := by
  decide

end FileLookup

/-! ## Times -/

/-- The time in the fields of the variant that was called: the calls from 403 on are the
`_time64` ones. -/
def signedTimeOf (number : Nat) (raw : TimeWords) : Option (BitVec 64 × BitVec 64) :=
  if number ∈ timeCalls then
    some (if number < 403 then (raw.w0.signExtend 64, raw.w1.signExtend 64)
    else (raw.w1 ++ raw.w0, raw.w3 ++ raw.w2))
  else none

/-- No narrow field is negative; and `futex_time64`, whose handler takes the halves of the
seconds for the two, gets no more than their low half. -/
def TimeKept (number : Nat) (raw : TimeWords) : Prop :=
  if number = 422 then raw.w1 = 0 ∧ raw.w3 ++ raw.w2 = 0#64
  else number < 403 → raw.w0.msb = false ∧ raw.w1.msb = false

theorem setWidth_signExtend (v : BitVec 32) : (v.signExtend 64).setWidth 32 = v := by
  refine BitVec.eq_of_getLsbD_eq fun i hi => ?_
  rw [BitVec.getLsbD_setWidth, BitVec.getLsbD_signExtend]
  simp [hi, show i < 64 by omega]

theorem append_halves (v : BitVec 64) : v.extractLsb' 32 32 ++ v.setWidth 32 = v := by
  refine BitVec.eq_of_getLsbD_eq fun i hi => ?_
  rw [BitVec.getLsbD_append, BitVec.getLsbD_extractLsb']
  by_cases h : i < 32
  · simp [h]
  · simp [h, show i - 32 < 32 by omega, show 32 + (i - 32) = i by omega]

theorem futex_time64_iff (raw : TimeWords) : readGuestTimespec true raw =
    (raw.w1 ++ raw.w0, raw.w3 ++ raw.w2) ↔ raw.w1 = 0 ∧ raw.w3 ++ raw.w2 = 0#64 := by
  simp only [readGuestTimespec, if_true, Prod.mk.injEq, FileLookup.setWidth_eq_append_iff]
  refine and_congr_right fun hzero => ?_
  rw [hzero, eq_comm]
  rfl

/-- The time a handler takes is the one its variant has exactly where no sign and no width is
lost, and what was written reads back exactly if it is not negative or the fields are wide. -/
theorem times_kept_iff (number : Nat) (raw : TimeWords) :
    (timeOf number raw = signedTimeOf number raw ↔ (number ∈ timeCalls → TimeKept number raw)) ∧
    (∀ s n : BitVec 32, readGuestTimespec true
        (writeGuestTimespec true raw (s.signExtend 64) (n.signExtend 64)) =
      (s.signExtend 64, n.signExtend 64) ↔ s.msb = false ∧ n.msb = false) ∧
    ∀ s n : BitVec 64, readGuestTimespec false (writeGuestTimespec false raw s n) = (s, n) := by
  refine ⟨?_, fun s n => ?_, fun s n => Prod.ext (append_halves s) (append_halves n)⟩
  · unfold timeOf signedTimeOf
    by_cases hn : number ∈ timeCalls
    · simp only [hn, if_true, Option.some.injEq, forall_const]
      simp only [timeCalls, List.mem_cons, List.not_mem_nil, or_false] at hn
      rcases hn with rfl | rfl | rfl | rfl | rfl | rfl | rfl | rfl | rfl | rfl
      case inr.inr.inr.inr.inr.inr.inr.inr.inl => exact futex_time64_iff raw
      all_goals simp [readGuestTimespec, isI386NarrowTime, TimeKept, setWidth_eq_signExtend_iff]
    · simp [hn]
  · simp [readGuestTimespec, writeGuestTimespec, setWidth_signExtend, setWidth_eq_signExtend_iff]

/-- A `nanosleep` of -1 seconds. -/
theorem nanosleep_unsigned : timeOf 162 ⟨0xFFFFFFFF, 0, 0, 0⟩ = some (0xFFFFFFFF, 0) ∧
      signedTimeOf 162 ⟨0xFFFFFFFF, 0, 0, 0⟩ = some (-1, 0) := by
  decide

end Fathom
