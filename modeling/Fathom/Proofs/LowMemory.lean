import Fathom.Proofs.MapPairs

/-!
# The lowest 64KB

Nothing marks the lowest 64KB of an arena but that the free list starts above them. So
no `mmap` without `MAP_FIXED` answers with them in a run that releases none of them.
-/

namespace Fathom

open Lib Spanned Geometry MemoryCall

/-! ## The arena's calls -/

def Geometry.InLow (g : Geometry) (a : UInt64) : Prop :=
  g.base.toNat ≤ a.toNat ∧ a.toNat < g.base.toNat + 65536

namespace GuestAddressSpace

variable {s s' : GuestAddressSpace}

def LowKept (s : GuestAddressSpace) : Prop := Within (s.base.toNat + 65536) s.limit s.free

theorem lowKept_new (g : Geometry) : (new g).LowKept := bounded_new g

theorem LowKept.bounded (hs : s.LowKept) : s.Bounded (s.base.toNat + 65536) := hs

theorem LowKept.of_bounded (hs : s'.Bounded (s.base.toNat + 65536))
    (hgeo : s'.toGeometry = s.toGeometry) : s'.LowKept := by
  unfold LowKept
  rw [hgeo]
  unfold Bounded at hs
  rw [hgeo] at hs
  exact hs

section

variable (hs : s.LowKept)
include hs

theorem allocate_low (h : Host) {size hint : UInt64} (p : Prot)
    (hfit : hint ≠ 0 → (s.alignDown hint).toNat + (s.alignUp size).toNat < 2 ^ 64) :
    let out := s.allocate h size hint p
    out.space.LowKept ∧ out.space.toGeometry = s.toGeometry ∧
      (out.ret ≠ 0 → s.base.toNat + 65536 ≤ out.ret.toNat ∧ out.ret.toNat ≤ s.limit) := by
  rcases allocate_cases hs.bounded h p hfit with heq | ⟨a, _, ⟨hfree, ha, hn⟩, heq⟩
  · rw [heq]
    exact ⟨hs, rfl, fun hne => absurd rfl hne⟩
  · rw [heq]
    obtain ⟨hlow, hgeo, hret⟩ := commitTaken_bounded hfree ha hn
    refine ⟨LowKept.of_bounded hlow hgeo, hgeo, fun hne => ?_⟩
    rw [hret.resolve_left hne]
    omega

theorem LowKept.congr (hgeo : s'.toGeometry = s.toGeometry) (hfree : s'.free = s.free) :
    s'.LowKept := by
  unfold LowKept
  rw [hgeo, hfree]
  exact hs

theorem commitFixed_low (h : Host) {a n : UInt64} (p : Prot)
    (hfit : (s.alignDown a).toNat ≤ (s.alignUp (a + n)).toNat) :
    (s.commitFixed h a n p).space.LowKept ∧
    (s.commitFixed h a n p).space.toGeometry = s.toGeometry := by
  obtain ⟨hlow, hgeo⟩ := commitFixed_bounded hs.bounded h p hfit
  exact ⟨LowKept.of_bounded hlow hgeo, hgeo⟩

theorem release_low (h : Host) {a n : UInt64} (hrel : n = 0 ∨ ¬ s.InLow a) :
    (s.release h a n).space.LowKept ∧ (s.release h a n).space.toGeometry = s.toGeometry := by
  have hstart : n ≠ 0 → s.base.toNat ≤ (maskDown kGuestPage a).toNat →
      s.base.toNat + 65536 ≤ (s.alignDown (maskDown kGuestPage a)).toNat := by
    intro hne hbase
    have hnot := hrel.resolve_left hne
    have hle := roundDown_le 4096 a.toNat
    have hdvd : s.page ∣ s.base.toNat + 65536 :=
      Nat.dvd_add s.base_aligned (lowestUsable_dvd s.toGeometry)
    rw [toNat_guestDown] at hbase
    rw [toNat_alignDown, le_roundDown_iff s.page_pos hdvd, toNat_guestDown,
      le_roundDown_iff (by omega) (Nat.dvd_trans s.guestPage_dvd_page hdvd)]
    unfold InLow at hnot
    omega
  obtain ⟨hlow, hgeo⟩ := release_bounded hs.bounded h hstart
  exact ⟨LowKept.of_bounded hlow hgeo, hgeo⟩

end

end GuestAddressSpace

/-! ## The system calls -/

namespace Sys

variable {a n : UInt64}

open GuestAddressSpace

variable {x : Sys}

structure Guards (x x' : Sys) : Prop where
  geometry : x'.space.toGeometry = x.space.toGeometry
  offset : x'.process.syscalls.guestBase = x.process.syscalls.guestBase
  low : x'.space.LowKept
  heap : x'.process.syscalls.heapBase = 0 ∨ x'.HeapWithin 65536

theorem Guards.trans {x' x'' : Sys} (h₁ : x.Guards x') (h₂ : x'.Guards x'') : x.Guards x'' :=
  ⟨h₂.geometry.trans h₁.geometry, h₂.offset.trans h₁.offset, h₂.low, h₂.heap⟩

variable {x' : Sys}

theorem Guards.refl (h : x.Guards x') : x'.Guards x' := ⟨rfl, rfl, h.low, h.heap⟩

section

variable (hg : x.Guards x)
include hg

theorem Guards.of_numbers (hgeo : x'.space.toGeometry = x.space.toGeometry)
    (hlow : x'.space.LowKept) (hnum : x'.numbers = x.numbers) : x.Guards x' := by
  obtain ⟨hoff, hbase, -⟩ := numbers_fields hnum
  exact ⟨hgeo, hoff, hlow, hg.heap.imp hbase.trans fun h => h.of_numbers hgeo hnum⟩

theorem Guards.of_space (hspace : x'.space = x.space) (hnum : x'.numbers = x.numbers) :
    x.Guards x' :=
  hg.of_numbers (by rw [hspace]) (by rw [hspace]; exact hg.low) hnum

theorem Guards.allocate (size hint : UInt64) (p : Prot)
    (hfit : hint ≠ 0 → (x.space.alignDown hint).toNat + (x.space.alignUp size).toNat < 2 ^ 64) :
    x.Guards (x.allocate size hint p).2 ∧ ((x.allocate size hint p).1 ≠ 0 →
        x.space.base.toNat + 65536 ≤ (x.allocate size hint p).1.toNat ∧
          (x.allocate size hint p).1.toNat ≤ x.space.limit) := by
  obtain ⟨hlow, hgeo, hret⟩ := allocate_low hg.low x.host p hfit
  exact ⟨hg.of_numbers hgeo hlow rfl, hret⟩

theorem Guards.release (hrel : n = 0 ∨ ¬ x.space.InLow a) : x.Guards (x.release a n).2 := by
  obtain ⟨hlow, hgeo⟩ := release_low hg.low x.host hrel
  exact hg.of_numbers hgeo hlow rfl

theorem Guards.protect (a n : UInt64) (p : Prot) : x.Guards (x.protect a n p).2 := by
  obtain ⟨hgeo, hfree⟩ := protect_fields x.space x.host a n p
  exact hg.of_numbers hgeo (hg.low.congr hgeo hfree) rfl

end

theorem Guards.shrinkHeap (hg : x.Guards x) (a : UInt64) : x.Guards (x.shrinkHeapBelow a) := by
  rcases shrinkHeapBelow_cases x a with heq | ⟨start, hne, ⟨hused, _⟩, hlt, hcases⟩
  · rw [heq]
    exact hg
  · have hheap := hg.heap.resolve_left hne
    have hstart := hheap.start
    have hgrown := hheap.grown
    have hroom := hheap.room
    have hstop := hheap.stop
    obtain ⟨hused, hsum, hnew, _⟩ := shrink_numbers hstop hroom hused hlt
    have hrel := hg.release (a := start)
      (n := x.toHost x.process.syscalls.heapLimit - start) (.inr (by
        unfold InLow
        omega))
    rcases hcases with ⟨_, heq⟩ | ⟨_, heq⟩
    · rw [heq]
      exact hrel
    · rw [heq]
      exact ⟨hrel.geometry, rfl, hrel.low, .inr (hheap.limited hrel.geometry rfl
        (by omega) (by omega))⟩

/-! ## What an mmap answers -/

structure Answers (x : Sys) (P : Prop) (out : SysOut) : Prop where
  guards : x.Guards out.sys
  high : P → ∀ a, out.ret = .ok a → x.space.base.toNat + 65536 ≤ (x.toHost a).toNat

theorem Guards.answers (hg : x.Guards x') {P : Prop} {out : SysOut} (h : x'.Answers P out) :
    x.Answers P out := by
  refine ⟨hg.trans h.guards, fun hP a ha => ?_⟩
  have := h.high hP a ha
  unfold Sys.toHost LinuxSyscalls.toHost at this ⊢
  rw [hg.offset, congrArg base hg.geometry] at this
  exact this

theorem Guards.error (hg : x.Guards x') (P : Prop) (e : Nat) :
    x.Answers P ⟨.error e, x'⟩ := ⟨hg, fun _ _ h => (nomatch h)⟩

theorem Answers.imp {P Q : Prop} {out : SysOut} (h : x.Answers Q out) (hPQ : P → Q) :
    x.Answers P out :=
  ⟨h.guards, fun hP => h.high (hPQ hP)⟩

theorem Guards.moved (hg : x.Guards x) {m : UInt64} (p : Prot) (ha : ¬ x.space.InLow a) :
    x.Guards (((x.release a n).2).allocate m 0 p).2 ∧ ((((x.release a n).2).allocate m 0 p).1 ≠ 0 →
        x.space.base.toNat + 65536 ≤ (((x.release a n).2).allocate m 0 p).1.toNat ∧
          (((x.release a n).2).allocate m 0 p).1.toNat ≤ x.space.limit) := by
  have hrel := hg.release (n := n) (.inr ha)
  obtain ⟨halloc, hret⟩ := hrel.refl.allocate m 0 p fun h => absurd rfl h
  rw [congrArg base hrel.geometry,
    show (x.release a n).2.space.limit = x.space.limit from
      congrArg limit hrel.geometry] at hret
  exact ⟨hrel.trans halloc, hret⟩

theorem Guards.finish (hg : x.Guards x) (r : MmapRequest) (placed : UInt64) :
    x.Answers (x.space.base.toNat + 65536 ≤ placed.toNat) (x.mmapFinish r placed) := by
  obtain ⟨hret, hnum, hspace⟩ := mmapFinish_spec x r placed
  have hfields : (x.space.settle x.host placed r.length r.recorded).toGeometry =
      x.space.toGeometry ∧ (x.space.settle x.host placed r.length r.recorded).free =
      x.space.free := by
    unfold settle
    split
    · exact ⟨rfl, rfl⟩
    · exact protect_fields _ _ _ _ _
  rw [← hspace] at hfields
  refine ⟨hg.of_numbers hfields.1 (hg.low.congr hfields.1 hfields.2) hnum, fun hP a ha => ?_⟩
  rw [hret] at ha
  cases ha
  rw [toHost_toGuest]
  exact hP

theorem Guards.copy (hg : x.Guards x) (r : MmapRequest) (file : HostFile) (placed : UInt64) :
    x.Answers (x.space.base.toNat + 65536 ≤ placed.toNat) (x.mmapCopy r file placed) := by
  unfold mmapCopy
  generalize copyLoop r file placed r.length.toNat 0 0 x.host = h
  have hread : x.Guards { x with host := h } := hg.of_space rfl rfl
  exact hread.answers (hread.refl.finish r placed)

variable {r : MmapRequest}

theorem toNat_add_phase {base : UInt64} (hbase : base.toNat ≤ x.space.limit) :
    (base + r.offset % x.space.pageSize).toNat =
      base.toNat + (r.offset % x.space.pageSize).toNat := by
  have hphase := toNat_phase_lt (x := x) r
  have hroom := x.space.limit_add_page
  exact toNat_add_of_lt (by omega)

theorem Guards.viewAt (hg : x.Guards x) (r : MmapRequest) (file : HostFile) (base : UInt64)
    (hbase : r.offset % x.space.pageSize ≠ 0 →
      x.space.base.toNat + 65536 ≤ base.toNat ∧ base.toNat ≤ x.space.limit) :
    x.Answers (x.space.base.toNat + 65536 ≤ base.toNat)
      (x.viewAt r file x.space.pageSize base) := by
  unfold Sys.viewAt
  dsimp only
  generalize (if viewLength x.space.pageSize _ _ = 0 then (false, x.host) else _) = m
  have hview : x.Guards { x with host := m.2 } := hg.of_space rfl rfl
  split
  · -- Mapped: the answer is the placement, moved by the phase.
    refine ⟨hg.of_space rfl rfl, fun hP a ha => ?_⟩
    cases ha
    change _ ≤ (x.toHost (x.toGuest _)).toNat
    rw [toHost_toGuest]
    by_cases h0 : r.offset % x.space.pageSize = 0
    · rw [h0, UInt64.add_zero]
      exact hP
    · rw [toNat_add_phase (hbase h0).2]
      omega
  · split
    next h0 =>
      have hlow : ¬ x.space.InLow base := fun hlow => by
        have := (hbase h0).1
        have := hlow.2
        omega
      obtain ⟨hmoved, hret⟩ := hview.refl.moved (r.recorded ||| kGuestProtWrite) hlow
      have hall := hview.trans hmoved
      split
      · exact hall.error _ _
      next hne =>
        refine (hall.answers (hall.refl.copy r file _)).imp fun _ => ?_
        rw [congrArg Geometry.base hall.geometry]
        exact (hret hne).1
    next h0 =>
      rw [not_not] at h0
      rw [h0, UInt64.add_zero]
      exact hview.answers (hview.refl.copy r file base)

theorem Guards.view (hg : x.Guards x) (r : MmapRequest) (file : HostFile) {placed : UInt64}
    (hplaced : r.offset % x.space.pageSize ≠ 0 → x.space.base.toNat + 65536 ≤ placed.toNat) :
    x.Answers (x.space.base.toNat + 65536 ≤ placed.toNat) (x.mmapView r file placed) := by
  rw [mmapView_eq]
  unfold viewPlace
  by_cases h0 : r.offset % x.space.pageSize = 0
  · rw [if_neg (fun h => h.1 h0), if_neg (by simp [h0])]
    exact hg.viewAt r file _ fun h => absurd h0 h
  · rw [if_pos (show (r.offset % x.space.pageSize != 0) = true by simpa using h0)]
    have hlow : ¬ x.space.InLow placed := fun hlow => by
      have := hplaced h0
      have := hlow.2
      omega
    obtain ⟨hmoved, hret⟩ := hg.moved (r.recorded ||| kGuestProtWrite) hlow
    generalize ((x.release placed r.length).2).allocate (r.length + r.offset % x.space.pageSize) 0
      (r.recorded ||| kGuestProtWrite) = out at hmoved hret ⊢
    have hbase : out.2.space.base = x.space.base := congrArg base hmoved.geometry
    have hlimit : out.2.space.limit = x.space.limit := congrArg limit hmoved.geometry
    have hpage : out.2.space.pageSize = x.space.pageSize :=
      congrArg pageSize hmoved.geometry
    split
    · exact hmoved.error _ _
    next hgot =>
      have hhigh := hret fun hz => hgot ⟨h0, hz⟩
      have hat := hmoved.refl.viewAt r file out.1 fun _ => by
        rw [hbase, hlimit]
        exact hhigh
      rw [hpage] at hat
      refine (hmoved.answers hat).imp fun _ => ?_
      rw [hbase]
      exact hhigh.1

def Undone (r : MmapRequest) : Prop :=
  r.anonymous = false ∧ ∀ file, r.file = some file → file.isFramebuffer = true

theorem Guards.descriptor (hg : x.Guards x) (r : MmapRequest) {placed : UInt64}
    (hanon : r.anonymous = false)
    (hplaced : r.fixed = false → x.space.base.toNat + 65536 ≤ placed.toNat)
    (hundone : Undone r → ¬ x.space.InLow placed)
    (hdisplay : r.display = 0 ∨ x.space.base.toNat + 65536 ≤ r.display.toNat) :
    x.Answers (x.space.base.toNat + 65536 ≤ placed.toNat) (x.mmapDescriptor r placed) := by
  unfold mmapDescriptor
  split
  next hfile =>
    refine (hg.release (.inr (hundone ⟨hanon, fun file h => ?_⟩))).error _ _
    rw [hfile] at h
    cases h
  next file hfile =>
    dsimp only
    split
    next hfb =>
      have hrel := hg.release (n := r.length) (.inr (hundone ⟨hanon,
        fun file' h => by rw [hfile] at h; cases h; exact hfb⟩))
      split
      · exact hrel.error _ _
      next hne =>
        refine ⟨hrel, fun _ a ha => ?_⟩
        cases ha
        change _ ≤ (x.toHost (x.toGuest r.display)).toNat
        rw [toHost_toGuest]
        exact hdisplay.resolve_left hne
    · split
      next hview =>
        simp only [Bool.and_eq_true, Bool.or_eq_true, Bool.not_eq_true', beq_iff_eq] at hview
        exact hg.view r file.host fun h0 => hplaced (hview.2.resolve_left h0)
      · exact hg.copy r file.host placed

/-! ## Runs -/

/-- An `mmap` that keeps clear of the lowest 64KB: the sums that say where it
goes do not wrap, a fixed one it would have to undo does not start there, and
the display is memory that was handed out. -/
structure MmapClear (x : Sys) (r : MmapRequest) : Prop where
  fixed : r.fixed = true → x.mmapAddress r ≠ 0 → (x.mmapAddress r).toNat + r.length.toNat < 2 ^ 64
  undone : r.fixed = true → x.mmapAddress r ≠ 0 → Undone r → ¬ x.space.InLow (x.mmapAddress r)
  hint : r.fixed = false → x.mmapAddress r ≠ 0 →
    (x.space.alignDown (x.mmapAddress r)).toNat + (x.space.alignUp r.length).toNat < 2 ^ 64
  display : r.display = 0 ∨ x.space.base.toNat + 65536 ≤ r.display.toNat

section

variable (hg : x.Guards x)
include hg

theorem Guards.commitFixed (p : Prot) (hfit : a.toNat + n.toNat < 2 ^ 64)
    (hin : x.space.contains a n = true) : x.Guards (x.commitFixed a n p).2 := by
  have hmem := contains_mem hfit hin
  have hroom := x.space.limit_add_page
  have hsum := toNat_add_of_lt hfit
  have hle : (x.space.alignDown a).toNat ≤ (x.space.alignUp (a + n)).toNat := by
    rw [toNat_alignDown, toNat_alignUp (by omega)]
    have := roundDown_le x.space.page a.toNat
    have := le_roundUp x.space.page_pos (a + n).toNat
    omega
  obtain ⟨hlow, hgeo⟩ := commitFixed_low hg.low x.host p hle
  exact hg.of_numbers hgeo hlow rfl

theorem Guards.place (hclear : x.MmapClear r) : let out := x.mmapPlace r (x.mmapAddress r)
    x.Guards out.2.2 ∧ ∀ a, out.1 = some a →
      ((r.fixed = true ∧ x.mmapAddress r ≠ 0) ∧ a = x.mmapAddress r) ∨
        (¬ (r.fixed = true ∧ x.mmapAddress r ≠ 0) ∧ x.space.base.toNat + 65536 ≤ a.toNat) := by
  have hfixed := hclear.fixed
  have hhint := hclear.hint
  unfold mmapPlace
  generalize x.mmapAddress r = address at hfixed hhint ⊢
  dsimp only
  split
  next hcond =>
    have hcond : r.fixed = true ∧ address ≠ 0 := by simpa using hcond
    split
    · exact ⟨hg, fun _ h => (nomatch h)⟩
    next hin =>
      rw [Bool.not_eq_true', Bool.not_eq_false] at hin
      have hshared : x.Guards (x.replaceSharedMappingsIn address (address + r.length)) :=
        hg.of_space rfl rfl
      have hcommit := hshared.trans (hshared.refl.commitFixed
        (r.recorded ||| kGuestProtWrite) (hfixed hcond.1 hcond.2) hin)
      split
      · refine ⟨?_, fun a ha => .inl ⟨hcond, ?_⟩⟩
        · dsimp only
          split
          · refine hcommit.trans ?_
            unfold notifyContentsReplaced
            split
            · exact hcommit.refl.of_numbers (notify_fields _ _ _).1
                (hcommit.low.congr (notify_fields _ _ _).1 (notify_fields _ _ _).2.1) rfl
            · exact hcommit.refl
          · exact hcommit
        · cases ha
          rfl
      · exact ⟨hcommit, fun _ h => (nomatch h)⟩
  next hcond =>
    have hcond : ¬ (r.fixed = true ∧ address ≠ 0) := by simpa using hcond
    have hshrunk : x.Guards (if address != 0 then x.shrinkHeapBelow address else x) := by
      split
      · exact hg.shrinkHeap address
      · exact hg
    generalize (if address != 0 then x.shrinkHeapBelow address else x) = x₁ at hshrunk ⊢
    have hsize : x₁.space.pageSize = x.space.pageSize := congrArg pageSize hshrunk.geometry
    obtain ⟨halloc, hret⟩ := hshrunk.refl.allocate r.length address
      (r.recorded ||| kGuestProtWrite) (fun hne => by
        unfold alignDown alignUp
        rw [hsize]
        refine hhint ?_ hne
        exact Bool.eq_false_iff.mpr fun hf => hcond ⟨hf, hne⟩)
    split
    · exact ⟨hshrunk.trans halloc, fun _ h => (nomatch h)⟩
    next hne =>
      refine ⟨hshrunk.trans halloc, fun a ha => .inr ⟨hcond, ?_⟩⟩
      cases ha
      have hhigh := (hret hne).1
      rw [show x₁.space.base = x.space.base from congrArg base hshrunk.geometry] at hhigh
      exact hhigh

theorem Guards.doMmap (hclear : x.MmapClear r) : x.Answers (r.fixed = false) (x.doMmap r) := by
  by_cases hlen : r.length = 0
  · unfold Sys.doMmap
    rw [if_pos hlen]
    exact hg.error _ _
  · obtain ⟨hplace, hspot⟩ := hg.place hclear
    generalize hout : x.mmapPlace r (x.mmapAddress r) = out at hplace hspot
    obtain ⟨spot, stale, x₁⟩ := out
    cases spot with
    | none =>
      rw [doMmap_refused hlen hout]
      exact hplace.error _ _
    | some placed =>
      rw [doMmap_placed hlen hout]
      have hspot := hspot placed rfl
      have hnote : x₁.Guards (x₁.mmapNoteImage r placed) :=
        hplace.refl.of_space (mmapNoteImage_space _ _ _) (mmapNoteImage_numbers _ _ _)
      have hall := hplace.trans hnote
      have hbase : (x₁.mmapNoteImage r placed).space.base = x.space.base :=
        congrArg base hall.geometry
      -- Without `MAP_FIXED` the placement is above the lowest 64KB.
      have hhigh : r.fixed = false → x.space.base.toNat + 65536 ≤ placed.toNat := by
        intro hf
        rcases hspot with ⟨⟨hfixed, _⟩, _⟩ | ⟨_, h⟩
        · rw [hf] at hfixed
          cases hfixed
        · exact h
      split
      · have hproc := mmapAnonymous_process (x₁.mmapNoteImage r placed) r placed stale
        have hfill : (x₁.mmapNoteImage r placed).Guards
            ((x₁.mmapNoteImage r placed).mmapAnonymous r placed stale) :=
          hnote.refl.of_space (congrArg GuestProcess.space hproc)
            (numbers_of_calls (congrArg GuestProcess.syscalls hproc))
        refine ((hall.trans hfill).answers (hfill.refl.finish r placed)).imp fun hf => ?_
        rw [show Sys.space _ = (x₁.mmapNoteImage r placed).space from
          congrArg GuestProcess.space hproc, hbase]
        exact hhigh hf
      next hanon =>
        refine (hall.answers (hnote.refl.descriptor r (Bool.eq_false_iff.mpr hanon) ?_ ?_
          ?_)).imp fun hf => ?_
        · rw [hbase]
          exact hhigh
        · intro hundone hin
          unfold InLow at hin
          rw [hbase] at hin
          rcases hspot with ⟨⟨hfixed, hne⟩, rfl⟩ | ⟨_, h⟩
          · exact hclear.undone hfixed hne hundone hin
          · omega
        · rw [hbase]
          exact hclear.display
        · rw [hbase]
          exact hhigh hf

theorem Guards.munmap (hrel : n = 0 ∨ ¬ x.space.InLow (x.toHost a)) :
    x.Guards (x.munmap a n).sys := by
  unfold Sys.munmap
  dsimp only
  generalize hx : Sys.replaceSharedMappingsIn _ _ _ = x₁
  have hshared : x.Guards x₁ := by
    rw [← hx]
    exact hg.of_space rfl rfl
  refine hshared.trans (hshared.refl.release ?_)
  unfold InLow
  rw [congrArg base hshared.geometry]
  exact hrel

theorem Guards.mremap {old new flags : UInt64} (hrel : old = 0 ∨ ¬ x.space.InLow (x.toHost a)) :
    x.Guards (x.mremap a old new flags).sys := by
  unfold Sys.mremap
  dsimp only
  split
  · exact hg
  · split
    · exact hg
    · obtain ⟨halloc, _⟩ := hg.allocate new 0
        (kGuestProtRead ||| kGuestProtWrite) fun h => absurd rfl h
      split
      · exact halloc
      · generalize hx : Sys.store (Sys.store _ _ _ _) _ _ _ = x₁
        have hcopied : x.Guards x₁ := by
          rw [← hx]
          exact halloc.trans (halloc.refl.of_space rfl rfl)
        refine hcopied.trans (hcopied.refl.release ?_)
        unfold InLow
        rw [congrArg base hcopied.geometry]
        exact hrel

theorem Guards.doBrk (requested : UInt64) : x.Guards (x.doBrk requested).sys := by
  unfold Sys.doBrk
  dsimp only
  split
  · exact hg
  next hne =>
    have hheap := hg.heap.resolve_left hne
    split
    · exact hg
    · split
      · exact hg
      next hin =>
        rw [not_or, gt_iff_lt] at hin
        have hkeep : ∀ x₁ : Sys, x₁.process = x.process →
            x.Guards { x₁ with process := { x₁.process with
              syscalls := { x₁.process.syscalls with heapBreak := requested } } } := by
          rintro ⟨_, _, -⟩ rfl
          exact ⟨rfl, rfl, hg.low, .inr ⟨hheap.start, Nat.le_of_not_lt hin.1,
            Nat.le_of_not_lt hin.2, hheap.stop⟩⟩
        split
        · exact hkeep _ rfl
        · exact hkeep _ rfl

end

def Fresh (x : Sys) : Prop :=
  (∃ g, x.space = GuestAddressSpace.new g) ∧ (x.process.syscalls.heapBase = 0 ∨ x.HeapWithin 65536)

theorem Fresh.guards (hf : x.Fresh) : x.Guards x := by
  obtain ⟨⟨g, hspace⟩, hheap⟩ := hf
  refine ⟨rfl, rfl, ?_, hheap⟩
  rw [hspace]
  exact lowKept_new g

end Sys

/-- The call gives back nothing in the lowest 64KB. -/
def MemoryCall.ClearOfLow (x : Sys) : MemoryCall → Prop
  | .mmap r => x.MmapClear r
  | .munmap address length => length = 0 ∨ ¬ x.space.InLow (x.toHost address)
  | .mprotect _ _ _ => True
  | .mremap address oldSize _ _ => oldSize = 0 ∨ ¬ x.space.InLow (x.toHost address)
  | .brk _ => True

def MemoryCall.Step (ok : Sys → MemoryCall → Prop) (x x' : Sys) : Prop :=
  ∃ c : MemoryCall, ok x c ∧ x' = (c.run x).sys

theorem MemoryCall.run_guards {x : Sys} (hg : x.Guards x) {c : MemoryCall}
    (hok : c.ClearOfLow x) : x.Guards (c.run x).sys := by
  cases c with
  | mmap r => exact (hg.doMmap hok).guards
  | munmap a n => exact hg.munmap hok
  | mprotect a n p => exact hg.protect _ _ _
  | mremap a _ _ _ => exact hg.mremap hok
  | brk requested => exact hg.doBrk requested

namespace Sys

open GuestAddressSpace

theorem Guards.run {x₀ x : Sys} (hg : x₀.Guards x₀)
    (hrun : Relation.ReflTransGen (Step ClearOfLow) x₀ x) : x.Guards x := by
  induction hrun with
  | refl => exact hg
  | tail _ hstep ih =>
    obtain ⟨c, hc, rfl⟩ := hstep
    exact (run_guards ih hc).refl

/-- In every run from a fresh arena whose calls release nothing in the lowest
64KB, an `mmap` without `MAP_FIXED` answers with memory above them. -/
theorem lowest_never_mapped {x₀ x : Sys} (hfresh : x₀.Fresh)
    (hrun : Relation.ReflTransGen (Step ClearOfLow) x₀ x)
    {r : MmapRequest} (hclear : x.MmapClear r) (hfixed : r.fixed = false) {a : UInt64}
    (hok : (x.doMmap r).ret = .ok a) : x.space.base.toNat + 65536 ≤ (x.toHost a).toNat := by
  exact ((hfresh.guards.run hrun).doMmap hclear).high hfixed a hok

/-- A process numbered from zero, in a fresh arena of its own. -/
def fromZero : Sys :=
  ⟨⟨true, 0x100000000, GuestAddressSpace.new oneMegabyte, .new true 0x100000000, rfl⟩,
    .empty, Host.fresh⟩

theorem fresh_fromZero : fromZero.Fresh := ⟨⟨_, rfl⟩, .inl rfl⟩

def oneHostPage : MmapRequest := ⟨0, 0x4000, 3, 0x22, none, 0, 0⟩

theorem mmap_answers_zero : fromZero.Fresh ∧
      Relation.ReflTransGen (Step fun _ _ => True) fromZero
        (fromZero.munmap 0 0x4000).sys ∧ oneHostPage.fixed = false ∧
      ((fromZero.munmap 0 0x4000).sys.doMmap oneHostPage).ret = .ok 0 ∧
      (fromZero.munmap 0 0x4000).sys.space.InLow ((fromZero.munmap 0 0x4000).sys.toHost 0) := by
  have hret : returnFreeExtent (GuestAddressSpace.new oneMegabyte).free
      0x100000000 0x4000 = [⟨0x100000000, 0x4000⟩, ⟨0x100010000, 0xf0000⟩] := by
    rw [returnFreeExtent_of_free (listInv_new _).free (by decide) (by decide)]
    · rfl
    · intro y _ hlt hcov
      have hlow := ((covers_new oneMegabyte y).mp hcov).1
      change 0x100000000 + 65536 ≤ y at hlow
      change y < 0x100000000 + 0x4000 at hlt
      omega
  have hsys : (fromZero.munmap 0 0x4000).sys = { fromZero with
        process := { fromZero.process with
          space := { fromZero.space with
            free := returnFreeExtent (GuestAddressSpace.new oneMegabyte).free
              0x100000000 0x4000 } }
        host := (fromZero.munmap 0 0x4000).sys.host } := rfl
  refine ⟨fresh_fromZero, .single ⟨.munmap 0 0x4000, trivial, rfl⟩, by decide, ?_, ?_⟩
  · rw [hsys, hret]
    rfl
  · exact ⟨by decide, by decide⟩

theorem lowest_never_mapped_twice :
    let x := (fromZero.doMmap oneHostPage).sys
    (x.doMmap oneHostPage).ret = .ok 0x14000 ∧
      x.space.base.toNat + 65536 ≤ (x.toHost 0x14000).toNat :=
  ⟨by rfl, lowest_never_mapped (r := oneHostPage) fresh_fromZero
    (.single ⟨.mmap oneHostPage, ⟨by decide, fun h => absurd h (by decide), by decide, .inl rfl⟩,
      rfl⟩)
    ⟨by decide, fun h => absurd h (by decide), by decide, .inl rfl⟩ (by decide) (by rfl)⟩

end Sys

end Fathom
