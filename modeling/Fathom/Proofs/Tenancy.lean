import Fathom.Lib.Machine
import Fathom.Proofs.Heap
import Fathom.Runtime.Session

/-!
# Whose memory a program's end gives back

`ReleaseProgramData` gives back a stack and a heap as they were loaded. By then the heap
may have shrunk and another program moved in, and the page below the stack, which came
with it, is not among what is given back.
-/

namespace Fathom

open Lib Spanned GuestAddressSpace Sys Session

/-! ## What a program is loaded with, and what it gives back -/

namespace LoadedProgram

variable {program : LoadedProgram} {s : GuestAddressSpace}

def guardBytes (g : Geometry) (program : LoadedProgram) : Set Nat :=
  {y | program.stack.stackBase.toNat - g.page ≤ y ∧ y < program.stack.stackBase.toNat}

def stackBytes (g : Geometry) (program : LoadedProgram) : Set Nat :=
  program.guardBytes g ∪ bytesOf program.stack.stackBase program.stack.stackSize

def heapBytes (program : LoadedProgram) : Set Nat :=
  bytesOf (program.heap + program.guestBase) kHeapReservation

structure Housed (g : Geometry) (program : LoadedProgram) : Prop where
  guard : g.base.toNat + g.page ≤ program.stack.stackBase.toNat
  stack : program.stack.stackBase.toNat + program.stack.stackSize.toNat ≤ g.limit
  heap : g.base.toNat ≤ (program.heap + program.guestBase).toNat
  reserved : (program.heap + program.guestBase).toNat + kHeapReservation.toNat ≤ g.limit

instance (g : Geometry) (program : LoadedProgram) : Decidable (program.Housed g) :=
  decidable_of_iff
    ((g.base.toNat + g.page ≤ program.stack.stackBase.toNat ∧
        program.stack.stackBase.toNat + program.stack.stackSize.toNat ≤ g.limit) ∧
      g.base.toNat ≤ (program.heap + program.guestBase).toNat ∧
        (program.heap + program.guestBase).toNat + kHeapReservation.toNat ≤ g.limit)
    ⟨fun h => ⟨h.1.1, h.1.2, h.2.1, h.2.2⟩, fun h => ⟨⟨h.guard, h.stack⟩, h.heap, h.reserved⟩⟩

def releasedBytes (program : LoadedProgram) : Set Nat :=
  {y | (program.stack.stackSize ≠ 0 ∧
      y ∈ guestPages program.stack.stackBase program.stack.stackSize) ∨
    (program.heap ≠ 0 ∧ y ∈ guestPages (program.heap + program.guestBase) kHeapReservation)}

end LoadedProgram

namespace GuestAddressSpace

variable {s : GuestAddressSpace}

theorem mem_releasePages {a n : UInt64} (hlow : s.base.toNat ≤ a.toNat)
    (hend : a.toNat + n.toNat ≤ s.limit) {y : Nat} :
    y ∈ s.releasePages a n ↔ n ≠ 0 ∧ y ∈ guestPages a n := by
  have hroom := s.limit_add_page
  have hpage := s.guestPage_dvd_page
  have hle : 4096 ≤ s.page := Nat.le_of_dvd s.page_pos hpage
  have hsum : (a + n).toNat = a.toNat + n.toNat := toNat_add_of_lt (by omega)
  have hdown := toNat_guestDown a
  have hup : (maskUp kGuestPage (a + n)).toNat = roundUp 4096 (a.toNat + n.toNat) := by
    rw [toNat_guestUp (by omega), hsum]
  have hfirst := (le_roundDown_iff (by decide) (hpage.trans s.base_aligned)).mpr hlow
  have hlast := (roundUp_le_iff (by decide) (hpage.trans s.page_dvd_limit)).mpr hend
  have hin : s.base ≤ maskDown kGuestPage a ∧ maskUp kGuestPage (a + n) ≤ s.base + s.size := by
    rw [UInt64.le_iff_toNat_le, UInt64.le_iff_toNat_le, hdown, hup, s.toNat_limit]
    exact ⟨hfirst, hlast⟩
  simp [releasePages, guestPages, hdown, hup, hin]

theorem covers_release_if (hs : Fits s.committed) (h : Host) {a n : UInt64} (c : Prop)
    [Decidable c] (hlow : s.base.toNat ≤ a.toNat) (hend : a.toNat + n.toNat ≤ s.limit) :
    let out := if c then ((s.release h a n).space, (s.release h a n).host) else (s, h)
    (Fits out.1.committed ∧ out.1.toGeometry = s.toGeometry) ∧
      ∀ y, Covers out.1.committed y ↔
        Covers s.committed y ∧ ¬ (c ∧ n ≠ 0 ∧ y ∈ guestPages a n) := by
  intro out
  by_cases hc : c
  · have hout : out.1 = (s.release h a n).space := by simp only [out, if_pos hc]
    rw [hout]
    refine ⟨fits_release hs h a n, fun y => ?_⟩
    rw [covers_release hs, mem_releasePages hlow hend]
    simp [hc]
  · have hout : out.1 = s := by simp only [out, if_neg hc]
    rw [hout]
    exact ⟨⟨hs, rfl⟩, fun y => by simp [hc]⟩

theorem covers_releaseProgramData (hs : Fits s.committed) {program : LoadedProgram}
    (hp : program.Housed s.toGeometry) (h : Host) (y : Nat) :
    Covers (s.releaseProgramData h program).1.committed y ↔
    Covers s.committed y ∧ y ∉ program.releasedBytes := by
  have hguard := hp.guard
  have hpos := s.base_pos
  have hbase : program.stack.stackBase ≠ 0 := ne_zero_of_toNat_pos (by omega)
  have hreserved : kHeapReservation ≠ 0 := by decide
  obtain ⟨⟨hfits, hgeo⟩, hstack⟩ := covers_release_if hs h (program.stack.stackBase ≠ 0 ∧
    program.stack.stackSize ≠ 0) (Nat.le_trans (Nat.le_add_right _ _) hguard) hp.stack
  rw [releaseProgramData]
  generalize (if program.stack.stackBase ≠ 0 ∧ program.stack.stackSize ≠ 0 then
    ((s.release h program.stack.stackBase program.stack.stackSize).space,
      (s.release h program.stack.stackBase program.stack.stackSize).host) else (s, h)) = out
    at hfits hgeo hstack ⊢
  obtain ⟨hlow, hend⟩ : out.1.base.toNat ≤ (program.heap + program.guestBase).toNat ∧
      (program.heap + program.guestBase).toNat + kHeapReservation.toNat ≤ out.1.limit := by
    rw [hgeo]
    exact ⟨hp.heap, hp.reserved⟩
  rw [(covers_release_if hfits out.2 (program.heap ≠ 0) hlow hend).2, hstack, and_assoc]
  simp [LoadedProgram.releasedBytes, hbase, hreserved, true_and]

end GuestAddressSpace

/-! ## Whose a byte is -/

def LoadedImage.bytes (image : LoadedImage) (guestBase : UInt64) : Set Nat :=
  bytesOf (image.imageBegin + guestBase) (image.imageEnd - image.imageBegin)

/-- What is a process's: its images, its stack, its heap up to the break and what
it has mapped. -/
def Running.bytes (p : Running) (mapped : Set Nat) : Set Nat :=
  p.program.image.bytes p.program.guestBase ∪ p.program.interpreter.bytes p.program.guestBase ∪
    bytesOf p.program.stack.stackBase p.program.stack.stackSize ∪
    bytesOf (p.syscalls.toHost p.syscalls.heapBase)
      (p.syscalls.heapBreak - p.syscalls.heapBase) ∪ mapped

/-- What is mapped after a call. What `mremap` moves is mapped where it is moved to. -/
def MemoryCall.mapped (w : Watched) : MemoryCall → Set Nat
  | .mremap address oldSize newSize flags =>
    match (w.sys.mremap address oldSize newSize flags).ret with
    | .error _ => w.live
    | .ok answer =>
      if newSize ≤ oldSize then w.live
      else w.live \ guestPages (w.sys.toHost address) oldSize ∪
        bytesOf (w.sys.toHost answer) newSize
  | c => c.live w

namespace Session

variable {s s' : Session} {pid : Nat} {e : SessionEvent}

def releases (s : Session) (pid : Nat) : SessionEvent → Option LoadedProgram
  | .started => (s.processes pid).bind Running.previous
  | .exit => (s.processes pid).bind fun p => if p.ownsProgram then some p.program else none
  | _ => none

theorem step_releases {program : LoadedProgram} (h : s.releases pid e = some program) :
    ∃ s', s.step pid e = some s' ∧ s'.space = (s.space.releaseProgramData s.host program).1 := by
  cases e with
  | started =>
    obtain ⟨p, hp, hprevious⟩ := Option.bind_eq_some_iff.mp h
    refine ⟨s.started pid p, by simp [step, hp], ?_⟩
    simp only [started, hprevious]
    rfl
  | exit =>
    obtain ⟨p, hp, howned⟩ := Option.bind_eq_some_iff.mp h
    split at howned
    next hown =>
      cases howned
      refine ⟨s.exit pid p, by simp [step, hp], ?_⟩
      simp only [exit, hown]
      rfl
    next => cases howned
  | spawn _ _ | call _ | exec _ => cases h

theorem step_processes (hstep : s.step pid e = some s') {q : Nat} (hq : q ≠ pid) :
    s'.processes q = s.processes q := by
  have hput : ∀ (s : Session) (p : Option Running), (s.put pid p).processes q = s.processes q :=
    fun s p => if_neg hq
  cases e with
  | spawn _ r =>
    rw [step] at hstep
    split at hstep
    · cases hstep
      rw [spawn]
      split
      · rfl
      · exact hput _ _
    · cases hstep
  | call c =>
    rw [step] at hstep
    split at hstep
    next p _ =>
      split at hstep
      · cases hstep
        exact hput _ _
      · cases hstep
    next => cases hstep
  | exec r =>
    rw [step] at hstep
    split at hstep
    next p _ =>
      split at hstep
      · cases hstep
        rw [exec]
        split
        · rfl
        · exact hput _ _
      · cases hstep
    next => cases hstep
  | started =>
    obtain ⟨p, _, rfl⟩ := Option.map_eq_some_iff.mp hstep
    rw [started]
    split
    · rfl
    · exact hput _ _
  | exit =>
    obtain ⟨p, _, rfl⟩ := Option.map_eq_some_iff.mp hstep
    exact hput _ _

end Session

/-! ## Runs -/

structure Tenancy where
  session : Session
  mapped : Nat → Set Nat

namespace Tenancy

variable (t : Tenancy)

def fresh (g : Geometry) (shared : SharedTable) (host : Host) : Tenancy :=
  ⟨⟨GuestAddressSpace.new g, shared, host, fun _ => none⟩, fun _ => ∅⟩

def mappedAfter (pid : Nat) : SessionEvent → Set Nat
  | .spawn _ _ => ∅
  | .call c =>
    match t.session.processes pid with
    | none => t.mapped pid
    | some p => c.mapped ⟨t.session.sys p, t.mapped pid⟩
  | .exec r =>
    match (t.session.space.loadProgram t.session.host 0 r).ret with
    | .error _ => t.mapped pid
    | .ok _ => ∅
  | .started => t.mapped pid
  | .exit => ∅

def step (t : Tenancy) (e : Nat × SessionEvent) : Tenancy :=
  match t.session.step e.1 e.2 with
  | none => t
  | some session => ⟨session, fun q => if q = e.1 then t.mappedAfter e.1 e.2 else t.mapped q⟩

/-- What is given back is given back whole: no range runs off the word, and the
extents are in the arena. -/
def Whole (e : Nat × SessionEvent) : Prop :=
  ∀ program, t.session.releases e.1 e.2 = some program →
  Fits t.session.space.committed ∧ program.Housed t.session.space.toGeometry

instance (t : Tenancy) (e : Nat × SessionEvent) : Decidable (t.Whole e) :=
  match h : t.session.releases e.1 e.2 with
  | none => isTrue fun _ hsome => nomatch h.symm.trans hsome
  | some program =>
    decidable_of_iff ((∀ r ∈ t.session.space.committed, hi r < 2 ^ 64) ∧
        program.Housed t.session.space.toGeometry)
      ⟨fun hwhole _ hsome => Option.some.inj (h.symm.trans hsome) ▸ hwhole,
        fun hwhole => hwhole program h⟩

def OfOther (pid y : Nat) : Prop :=
  ∃ q p, q ≠ pid ∧ t.session.processes q = some p ∧ y ∈ p.bytes (t.mapped q)

/-- What is given back is nobody else's, and all that was the program's to use. -/
def Sound (e : Nat × SessionEvent) : Prop :=
  ∀ program, t.session.releases e.1 e.2 = some program →
  (∀ y, t.OfOther e.1 y → Covers t.session.space.committed y →
    Covers (t.step e).session.space.committed y) ∧
  ∀ y ∈ program.stackBytes t.session.space.toGeometry ∪ program.heapBytes,
    ¬ Covers (t.step e).session.space.committed y

/-- No committed byte of the pages that are given back is another's. The page below
the stack, and a heap at address zero, are committed no longer. -/
structure Clear (t : Tenancy) (pid : Nat) (program : LoadedProgram) : Prop where
  others : ∀ y, t.OfOther pid y → Covers t.session.space.committed y → y ∉ program.releasedBytes
  guard : ∀ y ∈ program.guardBytes t.session.space.toGeometry,
    Covers t.session.space.committed y → y ∈ program.releasedBytes
  heap : program.heap = 0 → ∀ y ∈ program.heapBytes, Covers t.session.space.committed y →
    y ∈ program.releasedBytes

theorem sound_iff {t : Tenancy} {e : Nat × SessionEvent} (hs : t.Whole e) :
    t.Sound e ↔ ∀ program, t.session.releases e.1 e.2 = some program → t.Clear e.1 program := by
  refine forall_congr' fun program => imp_congr_right fun hreleases => ?_
  obtain ⟨_, hstep, hspace⟩ := step_releases hreleases
  obtain ⟨hfits, hhoused⟩ := hs program hreleases
  have hnext : (t.step e).session.space =
      (t.session.space.releaseProgramData t.session.host program).1 := by
    simp only [step, hstep, hspace]
  have hcovers := covers_releaseProgramData hfits hhoused t.session.host
  rw [hnext]
  simp only [hcovers]
  constructor
  · rintro ⟨hothers, hown⟩
    have hgone : ∀ y ∈ program.stackBytes t.session.space.toGeometry ∪ program.heapBytes,
        Covers t.session.space.committed y → y ∈ program.releasedBytes :=
      fun y hy hcov => not_not.mp fun hnot => hown y hy ⟨hcov, hnot⟩
    exact
      { others := fun y hy hcov => (hothers y hy hcov).2
        guard := fun y hy => hgone y (.inl (.inl hy))
        heap := fun _ y hy => hgone y (.inr hy) }
  · intro hclear
    refine ⟨fun y hy hcov => ⟨hcov, hclear.others y hy hcov⟩, fun y hy hleft => hleft.2 ?_⟩
    rcases hy with (hguard | hstack) | hheap
    · exact hclear.guard y hguard hleft.1
    · refine .inl ⟨fun hzero => ?_, mem_guestPages_of_mem hstack.1 hstack.2⟩
      have hlt := hstack.2
      have hle := hstack.1
      rw [hzero, UInt64.toNat_zero] at hlt
      omega
    · by_cases hzero : program.heap = 0
      · exact hclear.heap hzero y hheap hleft.1
      · exact .inr ⟨hzero, mem_guestPages_of_mem hheap.1 hheap.2⟩

theorem processes_step {t : Tenancy} {e : Nat × SessionEvent} {q : Nat} (hq : q ≠ e.1) :
    (t.step e).session.processes q = t.session.processes q := by
  rw [step]
  split
  · rfl
  next session hstep => exact step_processes hstep hq

/-- In a run in which everything is given back whole, every program's data is given
back soundly exactly where each is when its pages are nobody else's, and nothing is
committed below its stack any more. -/
theorem programs_released_iff {t : Tenancy} {events : List (Nat × SessionEvent)}
    (hin : Along step Whole t events) : Along step Sound t events ↔
    Along step (fun t e => ∀ program, t.session.releases e.1 e.2 = some program →
      t.Clear e.1 program) t events :=
  along_congr_within (J := fun _ => True) (fun _ _ _ _ => trivial)
    (fun _ _ _ hs => sound_iff hs) trivial hin

/-! ## Two programs in one arena -/

def onePetabyte : Geometry :=
  { Geometry.oneMegabyte with
    size := 0x4000000000000
    size_aligned := by decide
    size_pos := by decide
    fits := by decide }

/-- A position-independent program of one segment, with a stack of 64KB. -/
def onePage : ProgramRequest where
  files := ⟨.ok ⟨false, .dyn, 0, 64, 56, 1, [⟨kPtLoad, 5, 0, 0, 16, 32⟩], 84, fun _ => 0⟩, false,
    fun _ => none⟩
  start := ⟨[], [], [], []⟩
  stackSize := 0x10000

def crowded : List (Nat × SessionEvent) :=
  [(1, .spawn 0 onePage), (1, .call (.mmap ⟨0x10002C000, 0x4000, 3, 0x22, none, 0, 0⟩)),
    (2, .spawn 0 onePage)]

theorem neighbour_uncommitted :
    let t := fresh onePetabyte .empty Host.fresh
    Along step Whole t (crowded ++ [(1, .exit)]) ∧ ¬ Along step Sound t (crowded ++ [(1, .exit)]) ∧
      ¬ Along step Sound t [(1, .spawn 0 onePage), (1, .exit)] := by
  intro t
  refine ⟨by decide +kernel, fun hsound => ?_, fun hsound => ?_⟩
  · have hlast := hsound.2.2.2.1
    have hsome : ((crowded.foldl step t).session.releases 1 .exit).isSome = true := by
      decide +kernel
    obtain ⟨program, hprogram⟩ := Option.isSome_iff_exists.mp hsome
    have hother : ((crowded.foldl step t).session.processes 2).map (fun p =>
        (p.program.stack.stackBase, p.program.stack.stackSize)) = some (0x100038000, 0x10000) := by
      decide +kernel
    obtain ⟨p, hp, hstack⟩ := Option.map_eq_some_iff.mp hother
    obtain ⟨hbase, hsize⟩ := Prod.mk.inj hstack
    have hmine : (crowded.foldl step t).OfOther 1 0x100038000 := by
      refine ⟨2, p, by decide, hp, .inl (.inl (.inr ?_))⟩
      rw [hbase, hsize]
      exact ⟨by decide, by decide⟩
    exact absurd ((hlast program hprogram).1 0x100038000 hmine (by decide +kernel))
      (by decide +kernel)
  · have hlast := hsound.2.1
    have hprogram : ((step t (1, .spawn 0 onePage)).session.releases 1 .exit).map (fun program =>
        program.stack.stackBase) = some 0x100018000 := by decide +kernel
    obtain ⟨program, hprogram, hbase⟩ := Option.map_eq_some_iff.mp hprogram
    refine (hlast program hprogram).2 0x100014000 (.inl (.inl ?_)) (by decide +kernel)
    rw [LoadedProgram.guardBytes, hbase]
    exact ⟨by decide, by decide⟩

def tidy : List (Nat × SessionEvent) :=
  [(1, .spawn 0 onePage), (1, .call (.munmap 0x100014000 0x4000))]

theorem programs_released_iff_tidy :
    let t := fresh onePetabyte .empty Host.fresh
    Along step Whole t (tidy ++ [(1, .exit)]) ∧ Along step Sound t (tidy ++ [(1, .exit)]) := by
  intro t
  have hin : Along step Whole t (tidy ++ [(1, .exit)]) := by decide +kernel
  refine ⟨hin, (programs_released_iff hin).mpr ⟨?_, ?_, ?_, trivial⟩⟩
  · intro program h
    cases h
  · intro program h
    cases h
  · intro program hreleases
    have hprogram : ((tidy.foldl step t).session.releases 1 .exit).map (fun program =>
        (program.stack.stackBase, program.heap)) = some (0x100018000, 0x100028000) := by
      decide +kernel
    have hcommitted : (tidy.foldl step t).session.space.committed.map (fun r =>
        (r.begin, r.size)) = [(0x100010000, 0x4000), (0x100018000, 0x10000),
          (0x100028000, 0x8000000)] := by decide +kernel
    have halone : ∀ q, q ≠ 1 → (tidy.foldl step t).session.processes q = none := fun q hq =>
      (processes_step hq).trans (processes_step hq)
    have hpage : (tidy.foldl step t).session.space.page = 0x4000 := by decide +kernel
    have hlast : (t.step (1, .spawn 0 onePage)).step (1, .call (.munmap 0x100014000 0x4000)) =
      tidy.foldl step t := rfl
    rw [hlast] at hreleases ⊢
    rw [hreleases, Option.map_some, Option.some.injEq, Prod.mk.injEq] at hprogram
    refine ⟨fun y hy => ?_, fun y hy hcov => ?_, fun hzero => ?_⟩
    · obtain ⟨q, p, hq, hp, -⟩ := hy
      rw [halone q hq] at hp
      cases hp
    · obtain ⟨r, hr, hlo, hhi⟩ := hcov
      have hmem := List.mem_map_of_mem (f := fun r : GuestRange => (r.begin, r.size)) hr
      rw [LoadedProgram.guardBytes, hprogram.1, hpage] at hy
      obtain ⟨hlow, hhigh⟩ : 0x100014000 ≤ y ∧ y < 0x100018000 := hy
      simp only [hcommitted, List.mem_cons, Prod.mk.injEq, List.not_mem_nil, or_false] at hmem
      simp only [lo, hi, Spanned.begin, Spanned.size] at hlo hhi
      rcases hmem with ⟨hbegin, hsize⟩ | ⟨hbegin, -⟩ | ⟨hbegin, -⟩
      · rw [hbegin, hsize] at hhi
        exact absurd hhi (Nat.not_lt.mpr hlow)
      · rw [hbegin] at hlo
        exact absurd hlo (Nat.not_le.mpr hhigh)
      · rw [hbegin] at hlo
        exact absurd hlo (Nat.not_le.mpr (hhigh.trans (by decide)))
    · rw [hprogram.2] at hzero
      exact absurd hzero (by decide)

end Tenancy

end Fathom
