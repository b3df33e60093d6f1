import Fathom.Proofs.SignalFrame
import Fathom.Proofs.Heap
import Fathom.Proofs.Family

/-!
# `wait4` and `waitid` tell of the same child

Both ask `WaitForChild`, and what it found goes to the guest by two different ways.
`wait4` returns the child and packs the low byte of its status into the second byte of a
word. `waitid` fills in a `siginfo_t`, takes the code from the second byte of the status,
where nothing was packed, and has no way to say that no child has ended yet. So the two
leave the session alike, and tell the same unless neither is to wait for a child that has
not ended, or the two bytes of the status differ.
-/

namespace Fathom

open Lib GuestAddressSpace

inductive Told where
  | waits
  | error (ret : UInt64)
  | nothing
  | child (pid code : UInt32)
  deriving DecidableEq

/-- From what `wait4` returned and the word it left, whose second byte is the
code. -/
def toldByWait4 (out : WaitOut) (wstatus : UInt64) : Told :=
  match out.ret with
  | none => .waits
  | some ret =>
    if ret = 0 then .nothing
    else if failLinux 4095 ≤ ret then .error ret
    else .child ret.toUInt32 ((out.sys.host.field32 wstatus 0 >>> 8) &&& 0xff)

/-- From what `waitid` returned and the record it left. Without a child its
signal and its process are zero. -/
def toldByWaitid (out : WaitOut) (infop : UInt64) : Told :=
  let fields := siginfoFields out.sys.process.syscalls.guestIs32bit
  let host := out.sys.host
  match out.ret with
  | none => .waits
  | some ret =>
    if ret ≠ 0 then .error ret
    else if host.field32 infop 0 = 0 ∧ host.field32 infop fields = 0 then .nothing
    else .child (host.field32 infop fields) (host.field32 infop (fields + 8))

/-! ## What a turn can answer -/

theorem FathomSession.waitFor_congr (s : FathomSession) (callerPid : Nat) (wantedPid : Int)
    {options options' : UInt32} (h : options &&& kWNoHang ≠ 0 ↔ options' &&& kWNoHang ≠ 0) :
    s.waitFor callerPid wantedPid options = s.waitFor callerPid wantedPid options' := by
  simp only [waitFor, h]

theorem noHang_passed (options : UInt32) : (if options &&& kWNoHang ≠ 0 then kWNoHang else 0)
    &&& kWNoHang ≠ 0 ↔ options &&& kWNoHang ≠ 0 := by
  split
  next hset => exact ⟨fun _ => hset, fun _ => by decide⟩
  next hclear => exact ⟨fun hne => absurd rfl hne, fun hset => absurd hset hclear⟩

theorem FathomSession.waitFor_cases (s : FathomSession) (callerPid : Nat) (wantedPid : Int)
    (options : UInt32) : (∃ q status s', 0 < q ∧ q < s.table.nextPid ∧
        s.waitFor callerPid wantedPid options = (some ⟨(q : Nat), some status⟩, s')) ∨
      s.waitFor callerPid wantedPid options = (some ⟨-10, none⟩, s) ∨
      ∃ s', s.waitFor callerPid wantedPid options =
        (if options &&& kWNoHang ≠ 0 then some ⟨0, none⟩ else none, s') := by
  obtain ⟨q, status, hq, -, hlook⟩ | ⟨-, -, hlook⟩ | ⟨-, hlook⟩ :=
    waitForChild_looks s callerPid wantedPid
  · obtain ⟨p, hp, hkin⟩ := Option.map_eq_some_iff.mp hq
    simp only [ProcessRecord.kin, Prod.mk.injEq] at hkin
    by_cases hzero : q = 0
    · refine .inr (.inr ⟨{ s with table := s.table.erase q }, ?_⟩)
      simp only [waitFor, hlook, hzero, Nat.cast_zero, lt_irrefl, if_false]
      split
      · rfl
      · rfl
    · refine .inl ⟨q, status, { s with table := s.table.erase q }, by omega, ?_, ?_⟩
      · by_contra hge
        rw [find, s.table.fresh q (Nat.le_of_not_lt hge)] at hp
        cases hp
      · simp only [waitFor, hlook, Int.toNat_natCast, hp, Option.map_some, hkin.2.2]
        rw [if_pos (by omega)]
  · refine .inr (.inr ⟨s, ?_⟩)
    simp only [waitFor, hlook, lt_irrefl, if_false]
    split
    · rfl
    · rfl
  · refine .inr (.inl ?_)
    simp [waitFor, hlook]

/-! ## What the guest reads back -/

section Read

variable {s s' : FathomSession} {x : Sys} {pid q : Nat} {status : Int}
  {arg1 arg2 arg3 arg4 out : UInt64} {answer : Option WaitAnswer}

theorem guestPointer_fits {n : UInt64} (h : x.guestPointer false arg1 n true = some out) :
    arg1 ≠ 0 ∧ out.toNat + n.toNat < 2 ^ 64 := by
  rw [Sys.guestPointer] at h
  split at h
  · cases h
  next hzero =>
    simp only [Bool.not_false, Bool.true_and] at h
    split at h
    · cases h
    next hvalid =>
      rw [not_or] at hzero
      cases h
      simp only [Bool.not_eq_true', Bool.not_eq_false] at hvalid
      exact ⟨hzero.1, validate_fits hvalid hzero.2⟩

theorem register_pid (hpos : 0 < q) (hq : q < 2 ^ 31) : UInt64.ofInt q ≠ 0 ∧
    ¬ failLinux 4095 ≤ UInt64.ofInt q ∧ (UInt64.ofInt q).toUInt32 = UInt32.ofNat q := by
  have hofInt : UInt64.ofInt q = UInt64.ofNat q := by
    rw [UInt64.ofInt, Int.emod_eq_of_lt (by omega) (by omega), Int.toNat_natCast]
  have hword : q < 2 ^ 64 := by omega
  have htoNat : (UInt64.ofNat q).toNat = q := UInt64.toNat_ofNat_of_lt' hword
  rw [hofInt]
  refine ⟨fun h => ?_, ?_, UInt64.toUInt32_ofNat' q⟩
  · rw [← UInt64.toNat_inj, UInt64.toNat_zero] at h
    omega
  · rw [UInt64.le_iff_toNat_le, htoNat]
    change ¬ 2 ^ 64 - 4095 ≤ q
    omega

theorem code_exitWord (status : Int) :
    (UInt32.ofNat (exitWord status) >>> 8) &&& 0xff = UInt32.ofNat (status % 256).toNat := by
  have hcode : (status % 256).toNat < 256 := by omega
  rw [exitWord]
  generalize (status % 256).toNat = code at hcode ⊢
  have hword : (UInt32.ofNat (code * 256)).toNat = code * 256 :=
    UInt32.toNat_ofNat_of_lt' (by rw [UInt32.size]; omega)
  have hbyte : (UInt32.ofNat code).toNat = code :=
    UInt32.toNat_ofNat_of_lt' (by rw [UInt32.size]; omega)
  rw [← UInt32.toNat_inj, UInt32.toNat_and, UInt32.toNat_shiftRight, hword, hbyte]
  change (code * 256) >>> 8 &&& (2 ^ 8 - 1) = code
  rw [Nat.and_two_pow_sub_one_eq_mod]
  omega

theorem toldByWait4_child
    (h : s.waitFor pid (intOfRegister arg1) arg3.toUInt32 = (some ⟨q, some status⟩, s'))
    (hpos : 0 < q) (hq : q < 2 ^ 31) (hptr : x.guestPointer false arg2 4 true = some out) :
    toldByWait4 (doWait4 s x pid arg1 arg2 arg3) out =
      .child (UInt32.ofNat q) (UInt32.ofNat (status % 256).toNat) := by
  obtain ⟨hsome, hfits⟩ := guestPointer_fits hptr
  obtain ⟨hne, herror, hpid⟩ := register_pid hpos hq
  have hasc : Ascending 0 4 [⟨0, 4, exitWord status⟩] := ⟨le_rfl, le_rfl⟩
  have hread : (x.host.putFields out [⟨0, 4, exitWord status⟩]).field32 out 0 =
      UInt32.ofNat (exitWord status) := by
    refine Host.field32_eq ?_ (List.mem_singleton.mpr rfl) rfl (by omega)
    rw [Host.putFields_mem hasc hfits]
    exact reads_putFields hasc _ _
  have hchild : (q : Int) > 0 ∧ arg2 ≠ 0 := ⟨by omega, hsome⟩
  simp only [toldByWait4, doWait4, h, Option.getD_some, if_pos hchild, hptr, if_neg hne,
    if_neg herror, hread, hpid, code_exitWord]

theorem childInfo_read (is32bit : Bool) (reaped status : Int) (hfits : out.toNat + 128 < 2 ^ 64)
    (h : Host) :
    let host := h.putFields out (childInfo is32bit reaped status)
    host.field32 out 0 = 17 ∧
      host.field32 out (siginfoFields is32bit) = UInt32.ofNat (reaped % 2 ^ 32).toNat ∧
      host.field32 out (siginfoFields is32bit + 8) = UInt32.ofNat (status / 256 % 256).toNat := by
  intro host
  have hasc : Ascending 0 28 (childInfo is32bit reaped status) := by
    cases is32bit with
    | false => simp [childInfo, siginfoFields, Ascending]
    | true => simp [childInfo, siginfoFields, Ascending]
  have hreads : Reads host.mem out.toNat (childInfo is32bit reaped status) := by
    rw [Host.putFields_mem hasc (by omega)]
    exact reads_putFields hasc _ _
  have hplace : siginfoFields is32bit ≤ 16 := by
    cases is32bit with
    | false => simp [siginfoFields]
    | true => simp [siginfoFields]
  exact ⟨Host.field32_eq hreads (v := kSigchld) (by simp [childInfo]) rfl (by omega),
    Host.field32_eq hreads (by simp [childInfo]) rfl (by omega),
    Host.field32_eq hreads (by simp [childInfo]) rfl (by omega)⟩

section

variable {wanted : Int} (hid : arg1 = kPAll ∨ arg1 = kPPid)
  (hwanted : wanted = if arg1 = kPAll then -1 else intOfRegister arg2)
include hid hwanted

theorem doWaitid_eq (h : s.waitFor pid wanted arg4.toUInt32 = (answer, s')) :
    (doWaitid s x pid arg1 arg2 arg3 arg4).session = s' ∧
    (answer = none → doWaitid s x pid arg1 arg2 arg3 arg4 = ⟨none, s', x⟩) ∧
    ∀ a, answer = some a → a.ret < 0 →
    doWaitid s x pid arg1 arg2 arg3 arg4 = ⟨some (UInt64.ofInt a.ret), s', x⟩ := by
  have hknown : ¬ (arg1 ≠ kPAll ∧ arg1 ≠ kPPid) := by
    rintro ⟨hall, hone⟩
    exact hid.elim hall hone
  simp only [doWaitid, if_neg hknown, ← hwanted, s.waitFor_congr pid wanted (noHang_passed _), h]
  refine ⟨?_, ?_, ?_⟩
  · cases answer with
    | none => rfl
    | some a =>
      simp only
      split
      · rfl
      · split
        · split
          · rfl
          · rfl
        · rfl
  · rintro rfl
    rfl
  · rintro a rfl hneg
    simp only [if_pos hneg]

theorem toldByWaitid_answer {answer : WaitAnswer}
    (h : s.waitFor pid wanted arg4.toUInt32 = (some answer, s')) (hret : 0 ≤ answer.ret)
    (hptr : x.guestPointer false arg3 128 true = some out) :
    toldByWaitid (doWaitid s x pid arg1 arg2 arg3 arg4) out =
      .child (UInt32.ofNat (answer.ret % 2 ^ 32).toNat)
        (UInt32.ofNat (answer.exitStatus.getD 0 / 256 % 256).toNat) := by
  obtain ⟨hsome, hfits⟩ := guestPointer_fits hptr
  have hknown : ¬ (arg1 ≠ kPAll ∧ arg1 ≠ kPPid) := by
    rintro ⟨hall, hone⟩
    exact hid.elim hall hone
  obtain ⟨hsigno, hpid, hcode⟩ := childInfo_read x.process.syscalls.guestIs32bit answer.ret
    (answer.exitStatus.getD 0) hfits (x.host.store out 128 fun _ => 0)
  simp only [doWaitid, if_neg hknown, ← hwanted, s.waitFor_congr pid wanted (noHang_passed _), h,
    if_neg (not_lt.mpr hret), if_pos hsome, hptr]
  simp only [toldByWaitid, hsigno, hpid, hcode]
  rw [if_neg (by simp), if_neg (by simp)]

end

theorem doWait4_session (h : s.waitFor pid (intOfRegister arg1) arg3.toUInt32 = (answer, s')) :
    (doWait4 s x pid arg1 arg2 arg3).session = s' := by
  simp only [doWait4, h]
  cases answer with
  | none => rfl
  | some a => rfl

end Read

/-! ## The two compared -/

/-- What is answered is an error, or a child whose status has two equal low bytes. -/
def TellsSame (s : FathomSession) (pid : Nat) (wanted : Int) (options : UInt32) : Prop :=
  ∀ answer, (s.waitFor pid wanted options).1 = some answer → 0 ≤ answer.ret →
  0 < answer.ret ∧ ∀ status, answer.exitStatus = some status → status / 256 % 256 = status % 256

theorem code_inj {a b : Int} :
    UInt32.ofNat (a % 256).toNat = UInt32.ofNat (b % 256).toNat ↔ a % 256 = b % 256 := by
  have ha : (a % 256).toNat < 2 ^ 32 := by omega
  have hb : (b % 256).toNat < 2 ^ 32 := by omega
  rw [← UInt32.toNat_inj, UInt32.toNat_ofNat_of_lt' ha, UInt32.toNat_ofNat_of_lt' hb]
  omega

/-- A child's number is an `int` in the source. -/
theorem waitid_eq_wait4_iff {s : FathomSession} (hpids : s.table.nextPid ≤ 2 ^ 31) {x : Sys}
    (pid : Nat) {wpid idtype id options options' wstatus infop wordAt infoAt : UInt64}
    (hid : idtype = kPAll ∨ idtype = kPPid)
    (hwanted : intOfRegister wpid = if idtype = kPAll then -1 else intOfRegister id)
    (hoptions : options.toUInt32 &&& kWNoHang ≠ 0 ↔ options'.toUInt32 &&& kWNoHang ≠ 0)
    (hword : x.guestPointer false wstatus 4 true = some wordAt)
    (hinfo : x.guestPointer false infop 128 true = some infoAt) :
    let w := doWait4 s x pid wpid wstatus options
    let i := doWaitid s x pid idtype id infop options'
    i.session = w.session ∧ (toldByWaitid i infoAt = toldByWait4 w wordAt ↔
      TellsSame s pid (intOfRegister wpid) options.toUInt32) := by
  intro w i
  have hsame := s.waitFor_congr pid (intOfRegister wpid) hoptions
  obtain ⟨q, status, s', hpos, hq, hturn⟩ | hturn | ⟨s', hturn⟩ :=
    s.waitFor_cases pid (intOfRegister wpid) options.toUInt32
  · have hi := hsame.symm.trans hturn
    refine ⟨(doWaitid_eq hid hwanted hi).1.trans (doWait4_session hturn).symm, ?_⟩
    rw [toldByWaitid_answer hid hwanted hi (by simp) hinfo,
      toldByWait4_child hturn hpos (by omega) hword]
    have hpid : ((q : Int) % 2 ^ 32).toNat = q := by omega
    simp only [hpid, Told.child.injEq, true_and, code_inj, TellsSame, hturn, Option.some.injEq]
    constructor
    · rintro hcode _ rfl -
      refine ⟨by simpa using hpos, fun status' hstatus => ?_⟩
      cases hstatus
      exact hcode
    · exact fun h => (h _ rfl (by simp)).2 status rfl
  · have hi := hsame.symm.trans hturn
    obtain ⟨hsession, -, herror⟩ := doWaitid_eq hid hwanted hi
    refine ⟨hsession.trans (doWait4_session hturn).symm, ?_⟩
    have htold : toldByWaitid i infoAt = toldByWait4 w wordAt := by
      rw [show i = _ from herror _ rfl (by decide)]
      simp only [w, toldByWaitid, toldByWait4, doWait4, hturn]
      rw [if_pos (by decide), if_neg (by decide), if_pos (by decide)]
    simp only [htold, true_iff, TellsSame, hturn, Option.some.injEq]
    rintro _ rfl hret
    exact absurd hret (by decide)
  · have hi := hsame.symm.trans hturn
    obtain ⟨hsession, hnone, -⟩ := doWaitid_eq hid hwanted hi
    refine ⟨hsession.trans (doWait4_session hturn).symm, ?_⟩
    by_cases hnohang : options.toUInt32 &&& kWNoHang ≠ 0
    · rw [if_pos hnohang] at hturn hi
      have hw : toldByWait4 w wordAt = .nothing := by
        simp [w, toldByWait4, doWait4, hturn, UInt64.ofInt]
      rw [toldByWaitid_answer hid hwanted hi (by simp) hinfo, hw]
      simp only [reduceCtorEq, false_iff]
      intro h
      exact absurd (h ⟨0, none⟩ (by rw [hturn]) (Int.le_refl 0)).1 (by simp)
    · rw [if_neg hnohang] at hturn hnone
      have htold : toldByWaitid i infoAt = toldByWait4 w wordAt := by
        rw [show i = _ from hnone rfl]
        simp only [w, toldByWaitid, toldByWait4, doWait4, hturn]
      simp only [htold, true_iff, TellsSame, hturn]
      intro answer hanswer
      cases hanswer

def withChild (finished : Bool) (exitStatus : Int) : FathomSession :=
  let first := FathomSession.started false .session []
  let s := FathomSession.startedSession first
  { s with table := s.table.insert 2 { first with ppid := 1, finished, exitStatus } }

theorem waitid_misses_code :
    let x := Sys.twoPageHeap
    let place := 0x100010000
    let everyone := 0xFFFFFFFFFFFFFFFF
    toldByWait4 (doWait4 (withChild true 1) x 1 everyone place 0) place = .child 2 1 ∧
      toldByWaitid (doWaitid (withChild true 1) x 1 kPAll 0 place 0) place = .child 2 0 ∧
      toldByWait4 (doWait4 (withChild false 0) x 1 everyone place 1) place = .nothing ∧
      toldByWaitid (doWaitid (withChild false 0) x 1 kPAll 0 place 1) place = .child 0 0 := by
  decide +kernel

theorem waitid_eq_wait4_iff_success :
    toldByWaitid (doWaitid (withChild true 0) Sys.twoPageHeap 1 kPAll 0 0x100010000 0) 0x100010000 =
      toldByWait4 (doWait4 (withChild true 0) Sys.twoPageHeap 1 0xFFFFFFFFFFFFFFFF 0x100010000 0)
        0x100010000 := by
  refine (waitid_eq_wait4_iff (by decide) 1 (.inl rfl) (by decide)
    Iff.rfl (by decide +kernel) (by decide +kernel)).2.mpr ?_
  have hturn : (FathomSession.waitFor (withChild true 0) 1
      (intOfRegister 0xFFFFFFFFFFFFFFFF) (UInt64.toUInt32 0)).1 = some ⟨2, some 0⟩ := by
    decide +kernel
  intro answer hanswer _
  rw [hturn, Option.some.injEq] at hanswer
  subst hanswer
  refine ⟨by decide, fun status hstatus => ?_⟩
  cases hstatus
  rfl

end Fathom
