import Fathom.Proofs.FixedZero

/-!
# A private mapping of a file holds the file

A file that is not mapped live is read into the mapping, and the read loop stops where
the file does.
-/

namespace Fathom

open Lib Spanned GuestAddressSpace

/-! ## The read loop -/

theorem HostFile.pread_spec (file : HostFile) (k : Nat) (count position : UInt64)
    (hcount : 0 < count.toNat) : (file.pread k count position).toNat ≤ count.toNat ∧
    (file.pread k count position).toNat ≤ file.size.toNat - position.toNat ∧
    ((file.pread k count position).toNat = 0 → file.size.toNat ≤ position.toNat) := by
  have hleft : (if file.size > position then file.size - position else 0).toNat =
      file.size.toNat - position.toNat := by
    split
    next hgt => exact toNat_sub_of_le hgt.le
    next hle =>
      rw [gt_iff_lt, UInt64.lt_iff_toNat_lt] at hle
      rw [UInt64.toNat_zero]
      omega
  have hone : (1 : UInt64).toNat = 1 := rfl
  unfold pread
  rw [toNat_wordMin, toNat_wordMin, toNat_wordMax, hleft]
  omega

namespace Sys

variable (file : HostFile) {x : Sys} {r : MmapRequest} {placed : UInt64}

theorem copyLoop_mem (hfit : placed.toNat + r.length.toNat < 2 ^ 64) (fuel : Nat) :
    ∀ (k : Nat) (done : UInt64) (h : Host), r.length.toNat ≤ done.toNat + fuel →
    done.toNat ≤ r.length.toNat → r.offset.toNat + done.toNat < 2 ^ 64 → ∀ y,
    (copyLoop r file placed fuel k done h).mem y =
      if (placed.toNat + done.toNat ≤ y ∧ y < placed.toNat + r.length.toNat) ∧
        y - placed.toNat + r.offset.toNat < file.size.toNat
      then file.bytes (y - placed.toNat + r.offset.toNat) else h.mem y := by
  induction fuel with
  | zero =>
    intro k done h hfuel hdone hoff y
    rw [copyLoop, if_neg]
    omega
  | succ _ ih =>
    intro k done h hfuel hdone hoff y
    rw [copyLoop]
    split
    next hlt =>
      rw [UInt64.lt_iff_toNat_lt] at hlt
      have hcount := toNat_sub_of_le hlt.le
      have hpos := toNat_add_of_lt hoff
      obtain ⟨hle, hleft, hend⟩ := file.pread_spec k (r.length - done) (r.offset + done) (by omega)
      dsimp only
      generalize file.pread k (r.length - done) (r.offset + done) = bytes at *
      split
      next h0 =>
        rw [h0, UInt64.toNat_zero] at hend
        rw [if_neg]
        omega
      next hne =>
        have hbytes : bytes.toNat ≠ 0 := fun h0 => hne (UInt64.toNat_inj.mp h0)
        have hsize := toNat_lt_word file.size
        have hnext : (done + bytes).toNat = done.toNat + bytes.toNat := toNat_add_of_lt (by omega)
        have hplace : (placed + done).toNat = placed.toNat + done.toNat :=
          toNat_add_of_lt (by omega)
        rw [ih (k + 1) (done + bytes) _ (by omega) (by omega) (by omega) y]
        -- The bytes of this read, and those the rest of the loop brings.
        by_cases hnow : placed.toNat + done.toNat ≤ y ∧ y < placed.toNat + done.toNat + bytes.toNat
        · rw [if_neg (by omega), if_pos (by omega)]
          change (if Host.inSpan (placed + done) bytes y then _ else _) = _
          rw [if_pos (by rw [Host.inSpan_iff]; omega)]
          congr 1
          omega
        · have hstore : (h.store (placed + done) bytes fun y => file.bytes
              (y - (placed + done).toNat + (r.offset + done).toNat)).mem y = h.mem y := by
            change (if Host.inSpan (placed + done) bytes y then _ else _) = _
            rw [if_neg (by rw [Host.inSpan_iff]; omega)]
          rw [hstore]
          refine if_congr ?_ rfl rfl
          omega
    next hge =>
      rw [UInt64.lt_iff_toNat_lt] at hge
      rw [if_neg]
      omega

/-! ## What a mapping is placed on -/

/-- A later state of the process, with its arena in order and a host that
answers. -/
structure Leads (x x' : Sys) : Prop where
  inv : x'.space.ListInv
  succeeds : x'.host.Succeeds
  geometry : x'.space.toGeometry = x.space.toGeometry
  offset : x'.process.syscalls.guestBase = x.process.syscalls.guestBase

theorem Leads.trans {x' x'' : Sys} (h₁ : x.Leads x') (h₂ : x'.Leads x'') : x.Leads x'' :=
  ⟨h₂.inv, h₂.succeeds, h₂.geometry.trans h₁.geometry, h₂.offset.trans h₁.offset⟩

variable {x' : Sys}

section

variable (h : x.Leads x')
include h

theorem Leads.refl : x'.Leads x' := ⟨h.inv, h.succeeds, rfl, rfl⟩

theorem Leads.page : x'.space.page = x.space.page := congrArg Geometry.page h.geometry

theorem Leads.pageSize : x'.space.pageSize = x.space.pageSize :=
  congrArg Geometry.pageSize h.geometry

theorem Leads.toHost_toGuest (a : UInt64) : x.toHost (x'.toGuest a) = a := by
  change a - x'.process.syscalls.guestBase + x.process.syscalls.guestBase = a
  rw [h.offset, UInt64.sub_add_cancel]

end

structure Zeroed (x : Sys) (a n : UInt64) : Prop where
  inside : x.Inside a n
  zero : ∀ y, a.toNat ≤ y → y < a.toNat + n.toNat → x.host.mem y = 0

section

variable (h : x.Leads x)
include h

theorem Leads.allocate (n hint : UInt64) (p : Prot) (hfit : x.space.AllocFits n hint) :
    x.Leads (x.allocate n hint p).2 ∧
    ((x.allocate n hint p).1 ≠ 0 → (x.allocate n hint p).2.Zeroed (x.allocate n hint p).1 n ∧
        x.space.page ∣ (x.allocate n hint p).1.toNat) := by
  obtain ⟨hinv, hgeo, _⟩ := allocate_spec h.inv x.host p hfit
  rcases allocate_host h.inv h.succeeds p hfit with ⟨_, heq⟩ |
    ⟨a, m, hm, ht, _, hret, _, hsucc, hmem, _⟩
  · unfold Sys.allocate
    rw [heq] at hinv hgeo ⊢
    exact ⟨⟨hinv, h.succeeds, hgeo, rfl⟩, fun hne => absurd rfl hne⟩
  · refine ⟨⟨hinv, hsucc, hgeo, rfl⟩, fun _ => ?_⟩
    have harena := ht.mem_arena h.inv
    have hup := le_roundUp x.space.page_pos n.toNat
    have hin : x.Inside a n := by
      unfold Inside
      omega
    change Zeroed _ (x.space.allocate x.host n hint p).ret n ∧
      _ ∣ (x.space.allocate x.host n hint p).ret.toNat
    rw [hret]
    refine ⟨⟨?_, fun y h1 h2 => ?_⟩, ht.start⟩
    · change (x.space.allocate x.host n hint p).space.base.toNat ≤ _ ∧
        _ ≤ (x.space.allocate x.host n hint p).space.limit
      rw [hgeo]
      exact hin
    · change (x.space.allocate x.host n hint p).host.mem y = 0
      rw [hmem y, if_pos ⟨h1, by omega⟩]

theorem Leads.release {a n : UInt64} (hfit : a.toNat + n.toNat + 4096 ≤ 2 ^ 64) :
    x.Leads (x.release a n).2 := by
  obtain ⟨hinv, hgeo⟩ := release_inv h.inv x.host hfit
  exact ⟨hinv, release_succeeds h.inv h.succeeds hfit, hgeo, rfl⟩

theorem Leads.releaseInside {a n : UInt64} (hin : x.Inside a n) : x.Leads (x.release a n).2 := by
  have hroom := x.space.limit_add_page
  have hgrain := Nat.le_of_dvd x.space.page_pos x.space.guestPage_dvd_page
  have hend := hin.2
  exact h.release (by omega)

theorem Leads.shrinkHeap (hheap : x.HeapFits) (a : UInt64) : x.Leads (x.shrinkHeapBelow a) :=
  shrinkHeapBelow_keeps hheap a h h.release fun _ _ hrel =>
    ⟨hrel.inv, hrel.succeeds, hrel.geometry, hrel.offset⟩

end

/-- The byte of a fixed mapping is one whose page had an owner. -/
def Leaves (x : Sys) (r : MmapRequest) (y : Nat) : Prop :=
  (r.fixed = true ∧ x.mmapAddress r ≠ 0) ∧ ∃ z ∈ pageOf x.space.page y, x.space.layout.attr z ≠ none

structure PlacedOn (x : Sys) (r : MmapRequest) (placed : UInt64) (x' : Sys) : Prop where
  leads : x.Leads x'
  inside : x'.Inside placed r.length
  left : ∀ y, placed.toNat ≤ y → y < placed.toNat + r.length.toNat → x.Leaves r y →
    x'.host.mem y = x.host.mem y
  zero : ∀ y, placed.toNat ≤ y → y < placed.toNat + r.length.toNat → ¬ x.Leaves r y →
    x'.host.mem y = 0
  fixed : r.fixed = true ∧ x.mmapAddress r ≠ 0 → placed = x.mmapAddress r
  free : ¬ (r.fixed = true ∧ x.mmapAddress r ≠ 0) → x.space.page ∣ placed.toNat

theorem Leads.place (h : x.Leads x) (hfit : x.MmapFits r) (hpos : 0 < r.length.toNat)
    {stale : List (UInt64 × UInt64)}
    (hplace : x.mmapPlace r (x.mmapAddress r) = (some placed, stale, x')) :
    x.PlacedOn r placed x' := by
  by_cases hfixed : r.fixed = true ∧ x.mmapAddress r ≠ 0
  · have hsum := hfit.fixed hfixed.1 hfixed.2
    have hcontains : x.space.contains (x.mmapAddress r) r.length = true := by
      by_contra hno
      unfold mmapPlace at hplace
      rw [if_pos (by simp [hfixed.1, hfixed.2]), if_pos (by simp [hno])] at hplace
      cases hplace
    have hin := contains_mem hsum hcontains
    obtain ⟨_, heq, hp, _⟩ := mmapPlace_fixed_spec h.inv h.succeeds hfixed.1 hpos hin
    rw [heq] at hplace
    cases hplace
    refine ⟨⟨hp.fixes.inv, hp.succeeds, hp.fixes.geometry,
        congrArg LinuxSyscalls.guestBase hp.calls⟩, ?_, fun y _ _ hleaves => hp.rest y hleaves.2,
      fun y h1 h2 hno => hp.zero y h1 h2 ?_, fun _ => rfl, fun hno => absurd hfixed hno⟩
    · unfold Inside
      rw [hp.fixes.geometry]
      exact hin
    · intro z hz
      by_contra hown
      exact hno ⟨hfixed, z, hz, hown⟩
  · obtain ⟨hlen, hreach⟩ := hfit.free (by
      rcases not_and_or.mp hfixed with hno | hno
      · exact .inl (Bool.eq_false_iff.mpr hno)
      · exact .inr (not_not.mp hno))
    unfold mmapPlace at hplace
    rw [if_neg (by simpa using hfixed)] at hplace
    dsimp only at hplace
    have hshrunk : x.Leads (if x.mmapAddress r != 0
        then x.shrinkHeapBelow (x.mmapAddress r) else x) := by
      split
      · exact h.shrinkHeap hfit.heap _
      · exact h
    generalize (if x.mmapAddress r != 0 then x.shrinkHeapBelow (x.mmapAddress r) else x) = x₁
      at hplace hshrunk
    have hpage := hshrunk.page
    obtain ⟨hnext, hzero⟩ := hshrunk.refl.allocate r.length (x.mmapAddress r)
      (r.recorded ||| kGuestProtWrite) ⟨hpos, by omega, by rw [hpage]; exact hreach⟩
    split at hplace
    · cases hplace
    next hne =>
      cases hplace
      obtain ⟨hz, hdvd⟩ := hzero hne
      rw [hpage] at hdvd
      exact ⟨hshrunk.trans hnext, hz.inside, fun y _ _ hleaves => absurd hleaves.1 hfixed,
        fun y h1 h2 _ => hz.zero y h1 h2, fun hyes => absurd hyes hfixed, fun _ => hdvd⟩

/-! ## What is read into it -/

theorem mmapCopy_contents (hin : x.Inside placed r.length) :
    (x.mmapCopy r file placed).ret = .ok (x.toGuest placed) ∧
    ∀ y, placed.toNat ≤ y → y < placed.toNat + r.length.toNat →
    (x.mmapCopy r file placed).sys.host.mem y =
      if y - placed.toNat + r.offset.toNat < file.size.toNat
      then file.bytes (y - placed.toNat + r.offset.toNat) else x.host.mem y := by
  have hlimit := x.space.limit_lt
  have hend := hin.2
  have hfit : placed.toNat + r.length.toNat < 2 ^ 64 := by omega
  have hloop := copyLoop_mem file hfit r.length.toNat 0 0 x.host (by omega)
    (by rw [UInt64.toNat_zero]; omega)
    (by have := toNat_lt_word r.offset; rw [UInt64.toNat_zero]; omega)
  unfold mmapCopy
  refine ⟨(mmapFinish_spec _ r placed).1, fun y h1 h2 => ?_⟩
  rw [(mmapFinish_host _ r placed).1]
  rw [hloop y]
  refine if_congr ?_ rfl rfl
  rw [UInt64.toNat_zero]
  omega

def liveLength (x : Sys) (r : MmapRequest) (file : HostFile) : UInt64 :=
  viewLength x.space.pageSize (r.offset % x.space.pageSize + r.length)
    (if file.size > r.offset - r.offset % x.space.pageSize
      then file.size - (r.offset - r.offset % x.space.pageSize) else 0)

theorem viewAt_copies (page base : UInt64) (hh : x.host.Succeeds) (hpage : page = x.space.pageSize)
    (hno : x.liveLength r file = 0 ∨ base % page ≠ 0) :
    ∃ h, h.Succeeds ∧ h.mem = x.host.mem ∧ x.viewAt r file page base = if r.offset % page ≠ 0 then
        let out := (({ x with host := h }.release base (r.length + r.offset % page)).2).allocate
          r.length 0 (r.recorded ||| kGuestProtWrite)
        if out.1 = 0 then ⟨.error enomem, out.2⟩ else out.2.mmapCopy r file out.1
      else { x with host := h }.mmapCopy r file (base + r.offset % page) := by
  subst hpage
  have hrefused : ∃ h : Host, h.Succeeds ∧ h.mem = x.host.mem ∧
      (if x.liveLength r file = 0 then (false, x.host)
        else x.host.mapFile x.space.pageSize base (x.liveLength r file) ⟨true, r.viewWritable⟩
          fun k => file.bytes ((r.offset - r.offset % x.space.pageSize).toNat + k)) =
        (false, h) := by
    by_cases h0 : x.liveLength r file = 0
    · exact ⟨x.host, hh, rfl, if_pos h0⟩
    · have hoff := hno.resolve_left h0
      rw [if_neg h0]
      unfold Host.mapFile
      rw [if_neg fun h => hoff h.2]
      exact ⟨{ x.host with calls := x.host.calls + 1 },
        fun k hk => hh k (Nat.le_of_succ_le hk), rfl, rfl⟩
  obtain ⟨h, hsucc, hmem, heq⟩ := hrefused
  refine ⟨h, hsucc, hmem, ?_⟩
  unfold liveLength at heq
  unfold viewAt
  dsimp only
  rw [heq]
  rfl

/-- The mapping becomes a view of the file: some process writes the file through
one, and the host can map it where it was placed. -/
def MapsLive (x : Sys) (r : MmapRequest) (file : HostFile) : Prop :=
  (x.mmapPlace r (x.mmapAddress r)).2.2.shared.fileIsWrittenThroughSharedMapping file = true ∧
  (r.fixed = true → r.offset % x.space.pageSize = 0 ∧
    (x.mmapAddress r = 0 ∨ x.mmapAddress r % x.space.pageSize = 0)) ∧ x.liveLength r file ≠ 0

theorem mmapDescriptor_private {file : OpenFile} (hfile : r.file = some file)
    (hfb : file.isFramebuffer = false) (hpriv : r.wantsShared = false) :
    x.mmapDescriptor r placed = if x.shared.fileIsWrittenThroughSharedMapping file.host = true ∧
        (r.offset % x.space.pageSize = 0 ∨ r.fixed = false)
      then x.mmapView r file.host placed else x.mmapCopy r file.host placed := by
  unfold mmapDescriptor
  rw [hfile]
  dsimp only
  rw [if_neg (by simp [hfb])]
  simp [hpriv, beq_iff_eq]

theorem Leads.viewCopies (h : x.Leads x) (hpos : 0 < r.length.toNat)
    (hlen : r.length.toNat + 2 * x.space.page ≤ 2 ^ 64) (hin : x.Inside placed r.length)
    (file : HostFile) (h0 : r.offset % x.space.pageSize ≠ 0) (hno : x.liveLength r file = 0)
    {answer : UInt64} (hok : (x.mmapView r file placed).ret = .ok answer) :
    ∃ x' placed', x.Leads x' ∧ x'.Zeroed placed' r.length ∧
    x.mmapView r file placed = x'.mmapCopy r file placed' := by
  have hphase := toNat_phase_lt (x := x) r
  have hsum := toNat_phased hlen
  have hrel := h.releaseInside hin
  obtain ⟨hnew, hzero⟩ := hrel.refl.allocate (r.length + r.offset % x.space.pageSize) 0
    (r.recorded ||| kGuestProtWrite) (allocFits_unhinted (by omega) (by rw [hrel.page]; omega))
  have hfirst := hrel.trans hnew
  rw [mmapView_eq, viewPlace_phased placed h0] at hok ⊢
  generalize ((x.release placed r.length).2).allocate (r.length + r.offset % x.space.pageSize) 0
    (r.recorded ||| kGuestProtWrite) = out at *
  split at hok
  · cases hok
  next hgot =>
    rw [if_neg hgot]
    have hz := (hzero fun hz => hgot ⟨h0, hz⟩).1
    obtain ⟨h', hsucc, _, heq⟩ := viewAt_copies file x.space.pageSize out.1
      hfirst.succeeds hfirst.pageSize.symm (.inl (by
        unfold liveLength at hno ⊢
        rw [hfirst.pageSize]
        exact hno))
    rw [heq, if_pos h0] at hok ⊢
    have hmid : out.2.Leads { out.2 with host := h' } := ⟨hfirst.inv, hsucc, rfl, rfl⟩
    have hback := hmid.trans (hmid.refl.releaseInside hz.inside)
    obtain ⟨hlast, hzero'⟩ := hback.refl.allocate r.length 0 (r.recorded ||| kGuestProtWrite)
      (allocFits_unhinted hpos (by rw [hback.page, hfirst.page]; omega))
    dsimp only at hok ⊢
    split at hok
    · cases hok
    next hne =>
      rw [if_neg hne]
      exact ⟨_, _, (hfirst.trans hback).trans hlast, (hzero' hne).1, rfl⟩

theorem Leads.copies (h : x.Leads x) (hpos : 0 < r.length.toNat)
    (hin : x.Inside placed r.length) {file : OpenFile} (hfile : r.file = some file)
    (hfb : file.isFramebuffer = false) (hpriv : r.wantsShared = false)
    (hlen : r.fixed = false → r.length.toNat + 2 * x.space.page ≤ 2 ^ 64)
    (hlive : x.shared.fileIsWrittenThroughSharedMapping file.host = true →
      (r.offset % x.space.pageSize = 0 ∨ r.fixed = false) → x.liveLength r file.host = 0 ∨
        (r.offset % x.space.pageSize = 0 ∧ placed % x.space.pageSize ≠ 0))
    {answer : UInt64} (hok : (x.mmapDescriptor r placed).ret = .ok answer) :
    ∃ x' placed', x.Leads x' ∧ x'.Inside placed' r.length ∧
      x.mmapDescriptor r placed = x'.mmapCopy r file.host placed' ∧
      ((placed' = placed ∧ x'.host.mem = x.host.mem) ∨
        (r.fixed = false ∧ x'.Zeroed placed' r.length)) := by
  rw [mmapDescriptor_private hfile hfb hpriv] at hok ⊢
  split at hok
  next hview =>
    have hno := hlive hview.1 hview.2
    rw [if_pos hview]
    by_cases h0 : r.offset % x.space.pageSize = 0
    · rw [mmapView_eq, viewPlace_whole placed h0, if_neg fun h => h.1 h0]
      obtain ⟨h', hsucc, hmem, heq⟩ := viewAt_copies file.host x.space.pageSize placed
        h.succeeds rfl (hno.imp_right And.right)
      rw [if_neg (not_not.mpr h0), h0, UInt64.add_zero] at heq
      exact ⟨{ x with host := h' }, placed, ⟨h.inv, hsucc, rfl, rfl⟩, hin, heq, .inl ⟨rfl, hmem⟩⟩
    · have hfree := hview.2.resolve_left h0
      obtain ⟨x', placed', hl, hz, heq⟩ := h.viewCopies hpos (hlen hfree) hin file.host h0
        (hno.resolve_right fun hc => h0 hc.1) hok
      exact ⟨x', placed', hl, hz.inside, heq, .inr ⟨hfree, hz⟩⟩
  next hview =>
    rw [if_neg hview]
    exact ⟨x, placed, h, hin, rfl, .inl ⟨rfl, rfl⟩⟩

/-! ## The whole call -/

/-- The interval `[a, a + length)` holds the file from the offset on, and zeros
from its end. -/
def HoldsFile (h : Host) (file : HostFile) (a offset length : UInt64) : Prop :=
  ∀ y, a.toNat ≤ y → y < a.toNat + length.toNat →
  h.mem y = if y - a.toNat + offset.toNat < file.size.toNat
    then file.bytes (y - a.toNat + offset.toNat) else 0

theorem holdsFile_mmapCopy_iff (hin : x.Inside placed r.length) :
    HoldsFile (x.mmapCopy r file placed).sys.host file placed r.offset r.length ↔
    ∀ y, placed.toNat ≤ y → y < placed.toNat + r.length.toNat →
    file.size.toNat ≤ y - placed.toNat + r.offset.toNat → x.host.mem y = 0 := by
  obtain ⟨_, hmem⟩ := mmapCopy_contents file hin
  constructor
  · intro hholds y h1 h2 hend
    have hy := hholds y h1 h2
    rw [hmem y h1 h2, if_neg (by omega), if_neg (by omega)] at hy
    exact hy
  · intro hzero y h1 h2
    rw [hmem y h1 h2]
    split
    · rfl
    next hend => exact hzero y h1 h2 (by omega)

/-- A private mapping of a file that is not mapped live holds the file exactly
when, past the end of it, what a fixed mapping leaves in place was zero. -/
theorem mmap_holds_file_iff {x : Sys} (hs : x.space.ListInv) (hh : x.host.Succeeds)
    {r : MmapRequest} (hfit : x.MmapFits r) (hanon : r.anonymous = false)
    (hpriv : r.wantsShared = false) {file : OpenFile} (hfile : r.file = some file)
    (hfb : file.isFramebuffer = false) (hlive : ¬ x.MapsLive r file.host) {answer : UInt64}
    (hok : (x.doMmap r).ret = .ok answer) :
    HoldsFile (x.doMmap r).sys.host file.host (x.toHost answer) r.offset r.length ↔
    ∀ y, (x.mmapAddress r).toNat ≤ y → y < (x.mmapAddress r).toNat + r.length.toNat →
    file.host.size.toNat ≤ y - (x.mmapAddress r).toNat + r.offset.toNat →
    x.Leaves r y → x.host.mem y = 0 := by
  have hlen : r.length ≠ 0 := by
    intro h0
    unfold doMmap at hok
    rw [if_pos h0] at hok
    cases hok
  have hpos : 0 < r.length.toNat := toNat_pos hlen
  have hx : x.Leads x := ⟨hs, hh, rfl, rfl⟩
  rcases hplace : x.mmapPlace r (x.mmapAddress r) with ⟨_ | placed, _, x₁⟩
  · rw [doMmap_refused hlen hplace] at hok
    cases hok
  · have hp := hx.place hfit hpos hplace
    unfold MapsLive at hlive
    rw [hplace] at hlive
    rw [doMmap_placed hlen hplace, if_neg (by simp [hanon])] at hok ⊢
    have hnoted : x₁.Leads (x₁.mmapNoteImage r placed) := by
      refine ⟨?_, ?_, ?_, congrArg Prod.fst (mmapNoteImage_numbers x₁ r placed)⟩
      · rw [mmapNoteImage_space]
        exact hp.leads.inv
      · rw [mmapNoteImage_host]
        exact hp.leads.succeeds
      · rw [mmapNoteImage_space]
    have hsame : (x₁.mmapNoteImage r placed).host.mem = x₁.host.mem := by rw [mmapNoteImage_host]
    have hshared := mmapNoteImage_shared x₁ r placed
    have hin : (x₁.mmapNoteImage r placed).Inside placed r.length := by
      have hinside := hp.inside
      unfold Inside at hinside ⊢
      rw [mmapNoteImage_space]
      exact hinside
    have hleads := hp.leads.trans hnoted
    obtain ⟨_, _, hl, hin₃, heq, hor⟩ := hnoted.refl.copies hpos hin hfile hfb hpriv
      (fun hfree => by
        rw [hleads.page]
        exact (hfit.free (.inl hfree)).1)
      (fun hwritten hphase => by
        rw [hshared] at hwritten
        unfold liveLength at hlive ⊢
        rw [hleads.pageSize] at hphase ⊢
        by_contra hcon
        rw [not_or] at hcon
        refine hlive ⟨hwritten, fun hfixed => ?_, hcon.1⟩
        have h0 := hphase.resolve_right (by simp [hfixed])
        refine ⟨h0, or_iff_not_imp_left.mpr fun haddr => ?_⟩
        rw [← hp.fixed ⟨hfixed, haddr⟩]
        by_contra hoff
        exact hcon.2 ⟨h0, hoff⟩) hok
    have hans := (mmapCopy_contents file.host hin₃).1
    rw [heq, hans] at hok
    cases hok
    rw [heq, (hleads.trans hl).toHost_toGuest, holdsFile_mmapCopy_iff file.host hin₃]
    rcases hor with ⟨rfl, hmem⟩ | ⟨hfree, hzero⟩
    · rw [hmem, hsame]
      by_cases hfixed : r.fixed = true ∧ x.mmapAddress r ≠ 0
      · rw [hp.fixed hfixed] at *
        refine forall₄_congr fun y h1 h2 _ => ?_
        by_cases hleaves : x.Leaves r y
        · rw [hp.left y h1 h2 hleaves]
          exact ⟨fun h _ => h, fun h => h hleaves⟩
        · exact ⟨fun _ hyes => absurd hyes hleaves, fun _ => hp.zero y h1 h2 hleaves⟩
      · exact ⟨fun _ y _ _ _ hleaves => absurd hleaves.1 hfixed,
          fun _ y h1 h2 _ => hp.zero y h1 h2 fun hleaves => hfixed hleaves.1⟩
    · refine ⟨fun _ y _ _ _ hleaves => ?_, fun _ y h1 h2 _ => hzero.zero y h1 h2⟩
      have hfixed := hleaves.1.1
      rw [hfree] at hfixed
      cases hfixed

def shortFile : OpenFile := ⟨[], false, ⟨[], 1, 1, 16, fun _ => 1, fun _ => 7⟩⟩

def mapShortFile (address : UInt64) (flags : UInt32) : MmapRequest :=
  ⟨address, 0x1000, 3, flags, some shortFile, 0, 0⟩

theorem mmap_keeps_sevens : sevens.space.ListInv ∧ sevens.host.Succeeds ∧
      sevens.MmapFits (mapShortFile 0x100010000 0x12) ∧
      ¬ sevens.MapsLive (mapShortFile 0x100010000 0x12) shortFile.host ∧
      (sevens.doMmap (mapShortFile 0x100010000 0x12)).ret = .ok 0x100010000 ∧
      ¬ HoldsFile (sevens.doMmap (mapShortFile 0x100010000 0x12)).sys.host shortFile.host
        (sevens.toHost 0x100010000) 0 0x1000 := by
  refine ⟨listInv_onePage, succeeds_onePage, ⟨.inl rfl, fun _ _ => by decide,
    fun h => absurd h (by decide)⟩, fun h => absurd h.1 (by decide), by rfl, fun h => ?_⟩
  have hbyte := h 0x100010010 (by decide) (by decide)
  exact absurd hbyte (by decide)

theorem mmap_holds_file_iff_sevens :
    HoldsFile (sevens.doMmap (mapShortFile 0 0x02)).sys.host shortFile.host
      (sevens.toHost 0x100014000) 0 0x1000 :=
  (mmap_holds_file_iff (x := sevens) listInv_onePage succeeds_onePage
    ⟨.inl rfl, fun h => absurd h (by decide), fun _ => by decide⟩ rfl rfl rfl rfl
    (fun h => absurd h.1 (by decide)) (by rfl)).mpr fun _ _ _ _ h => absurd h.1.1 (by decide)

end Sys

end Fathom
