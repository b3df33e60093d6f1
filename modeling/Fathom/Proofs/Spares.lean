import Fathom.Proofs.MmapErrors

/-!
# What a call leaves alone

A set of bytes nobody else may have: each has an owner, or is no byte of the arena's.
What an `mmap` does without `MAP_FIXED` it does to memory that was free, so it spares
the whole set, owners and values.
-/

namespace Fathom

open Lib Spanned GuestAddressSpace

theorem Host.mapFile_mem {h : Host} {page a n : UInt64} {p : HostProt} {bytes : Nat → UInt8}
    {y : Nat} (hout : ¬ Host.inSpan a n y = true) :
    (h.mapFile page a n p bytes).2.mem y = h.mem y := by
  unfold Host.mapFile
  split
  · exact if_neg hout
  · rfl

namespace Sys

variable {n a : UInt64} {x' : Sys} {stale : List (UInt64 × UInt64)} {x : Sys} {r : MmapRequest}
  {S T : Set Nat}

def Held (x : Sys) (S : Set Nat) : Prop := ∀ y ∈ S, x.space.OffLimits y

theorem Held.of_covers (hS : x.Held S) (hgeo : x'.space.toGeometry = x.space.toGeometry)
    (hcov : ∀ y ∈ S, Covers x.space.committed y → Covers x'.space.committed y) : x'.Held S := by
  intro y hy
  unfold OffLimits
  rw [hgeo]
  exact (hS y hy).imp_left (hcov y hy)

structure Spares (S T : Set Nat) (x x' : Sys) : Prop where
  inv : x'.space.ListInv
  geometry : x'.space.toGeometry = x.space.toGeometry
  numbers : x'.numbers = x.numbers
  covers : ∀ y ∈ S, Covers x.space.committed y → Covers x'.space.committed y
  mem : ∀ y ∈ T, x'.host.mem y = x.host.mem y

theorem Spares.trans {x₁ x₂ : Sys} (h₁ : Spares S T x x₁) (h₂ : Spares S T x₁ x₂) :
    Spares S T x x₂ :=
  ⟨h₂.inv, h₂.geometry.trans h₁.geometry, h₂.numbers.trans h₁.numbers,
    fun y hy hc => h₂.covers y hy (h₁.covers y hy hc),
    fun y hy => (h₂.mem y hy).trans (h₁.mem y hy)⟩

theorem Spares.held (h : Spares S T x x') (hS : x.Held S) : x'.Held S :=
  hS.of_covers h.geometry h.covers

theorem Spares.page (h : Spares S T x x') : x'.space.page = x.space.page :=
  congrArg Geometry.page h.geometry

theorem Spares.refl (hs : x.space.ListInv) (S T : Set Nat) : Spares S T x x :=
  ⟨hs, rfl, rfl, fun _ _ => id, fun _ _ => rfl⟩

theorem Spares.of_space (hs : x.space.ListInv) (hspace : x'.space = x.space)
    (hnumbers : x'.numbers = x.numbers) (hmem : ∀ y ∈ T, x'.host.mem y = x.host.mem y) :
    Spares S T x x' := by
  refine ⟨?_, ?_, hnumbers, fun y _ hy => ?_, hmem⟩
  · rw [hspace]
    exact hs
  · rw [hspace]
  · rw [hspace]
    exact hy

/-! ## A place -/

structure Spot (S T : Set Nat) (x : Sys) (a n : UInt64) : Prop where
  inside : x.Inside a n
  owned : ∀ y, a.toNat ≤ y → y < a.toNat + n.toNat → Covers x.space.committed y
  clear : ∀ y ∈ guestPages a n, y ∉ S
  quiet : ∀ y ∈ T, ¬ (a.toNat ≤ y ∧ y < a.toNat + roundUp x.space.page n.toNat)

theorem mem_guestPages_of_mem {y : Nat} (h1 : a.toNat ≤ y) (h2 : y < a.toNat + n.toNat) :
    y ∈ guestPages a n := by
  have hdown := roundDown_le 4096 a.toNat
  have hup := le_roundUp (show 0 < 4096 by omega) (a.toNat + n.toNat)
  exact ⟨by omega, by omega⟩

theorem Spot.of_space (h : Spot S T x a n) (hspace : x'.space = x.space) : Spot S T x' a n := by
  obtain ⟨hin, howned, hclear, hquiet⟩ := h
  unfold Inside at hin
  rw [← hspace] at hin howned hquiet
  exact ⟨hin, howned, hclear, hquiet⟩

theorem Spares.allocate (hs : x.space.ListInv) (hS : x.Held S) (hT : T ⊆ S) {hint : UInt64}
    (p : Prot) (hfit : x.space.AllocFits n hint) :
    Spares S T x (x.allocate n hint p).2 ∧ ((x.allocate n hint p).1 ≠ 0 →
      Spot S T (x.allocate n hint p).2 (x.allocate n hint p).1 n) := by
  have halloc := allocates hs p hfit
  have hnumbers : (x.allocate n hint p).2.numbers = x.numbers := rfl
  generalize x.allocate n hint p = out at *
  have hpage : out.2.space.page = x.space.page := congrArg Geometry.page halloc.geometry
  refine ⟨⟨halloc.inv, halloc.geometry, hnumbers, ?_, fun y hy => halloc.kept y (hS y (hT hy))⟩,
    fun hne => ?_⟩
  · intro y _ hy
    by_cases h0 : out.1 = 0
    · exact (halloc.none h0 y).mpr hy
    · exact (halloc.some h0 y).mpr (.inl hy)
  · have hup := le_roundUp x.space.page_pos n.toNat
    have harena := halloc.room hne
    -- The pages were free, and nothing of `S` was.
    have hapart : ∀ y ∈ S,
        ¬ (out.1.toNat ≤ y ∧ y < out.1.toNat + roundUp x.space.page n.toNat) := by
      rintro y hy ⟨h1, h2⟩
      rcases hS y hy with hc | hout
      · exact halloc.free hne y h1 h2 hc
      · omega
    refine ⟨halloc.inside hne, fun y h1 h2 => (halloc.some hne y).mpr (.inr ⟨h1, by omega⟩),
      fun y hy hyS => hapart y hyS ?_, fun y hy => ?_⟩
    · exact guestPages_subset x.space.guestPage_dvd_page x.space.page_pos (halloc.aligned hne) hy
    · rw [hpage]
      exact hapart y (hT hy)

theorem Spares.release (hs : x.space.ListInv) (hS : x.Held S) (hT : T ⊆ S) (hpos : 0 < n.toNat)
    (hin : x.Inside a n) (hclear : ∀ y ∈ guestPages a n, y ∉ S) :
    Spares S T x (x.release a n).2 := by
  have hrel := releases hs hpos hin
  have hnumbers : (x.release a n).2.numbers = x.numbers := rfl
  generalize (x.release a n).2 = x' at *
  have hcov : ∀ y ∈ S, Covers x.space.committed y → Covers x'.space.committed y := fun y hy hc =>
    (hrel.covers y).mpr ⟨hc, fun hg => hclear y hg hy⟩
  exact ⟨hrel.inv, hrel.geometry, hnumbers, hcov,
    fun y hy => hrel.kept y (hS.of_covers hrel.geometry hcov y (hT hy))⟩

/-! ## An answer -/

structure Serves (S T : Set Nat) (x : Sys) (n : UInt64) (out : SysOut) : Prop where
  spares : Spares S T x out.sys
  given : ∀ answer, out.ret = .ok answer → ∀ y, (x.toHost answer).toNat ≤ y →
    y < (x.toHost answer).toNat + n.toNat → out.sys.space.OffLimits y ∧
      (y ∉ S ∨ y < x.space.base.toNat ∨ x.space.limit ≤ y)

theorem Serves.error (h : Spares S T x x') (e : Nat) : Serves S T x n ⟨.error e, x'⟩ :=
  ⟨h, fun _ hok => (nomatch hok)⟩

theorem Serves.after {x₁ : Sys} {out : SysOut} (h : Spares S T x x₁) (hout : Serves S T x₁ n out) :
    Serves S T x n out := by
  refine ⟨h.trans hout.spares, fun answer hok y => ?_⟩
  have hgiven := hout.given answer hok y
  rw [toHost_of_numbers h.numbers, h.geometry] at hgiven
  exact hgiven

section

variable (hs : x.space.ListInv)
include hs

theorem Serves.finish (hpos : 0 < r.length.toNat) {placed : UInt64}
    (hspot : Spot S T x placed r.length) : Serves S T x r.length (x.mmapFinish r placed) := by
  have hroom := x.space.limit_add_page
  have hend := hspot.inside.2
  obtain ⟨hret, hnumbers, hspace⟩ := mmapFinish_spec x r placed
  obtain ⟨hmem, _⟩ := mmapFinish_host x r placed
  obtain ⟨hinv, hgeo, hsame, _⟩ := settle_spec hs x.host (a := placed) r.recorded hpos (by omega)
  rw [← hspace] at hinv hgeo hsame
  have hcov : ∀ y, Covers x.space.committed y →
      Covers (x.mmapFinish r placed).sys.space.committed y := by
    intro y hy
    by_contra hno
    exact tagAt_eq_none.mp ((hsame y).mp (tagAt_eq_none.mpr hno)) hy
  refine ⟨⟨hinv, hgeo, hnumbers, fun y _ => hcov y,
    fun y _ => congrFun hmem y⟩, fun answer hok y h1 h2 => ?_⟩
  cases hret.symm.trans hok
  rw [toHost_toGuest] at h1 h2
  exact ⟨.inl (hcov y (hspot.owned y h1 h2)), .inl (hspot.clear y (mem_guestPages_of_mem h1 h2))⟩

theorem Serves.copy (hpos : 0 < r.length.toNat) {placed : UInt64}
    (hspot : Spot S T x placed r.length) (file : HostFile) :
    Serves S T x r.length (x.mmapCopy r file placed) := by
  have hlimit := x.space.limit_lt
  have hend := hspot.inside.2
  have hup := le_roundUp x.space.page_pos r.length.toNat
  have hfit : placed.toNat + r.length.toNat < 2 ^ 64 := by omega
  have hloop := copyLoop_mem file hfit r.length.toNat 0 0 x.host (by omega)
    (by rw [UInt64.toNat_zero]; omega)
    (by have := toNat_lt_word r.offset; rw [UInt64.toNat_zero]; omega)
  unfold mmapCopy
  generalize copyLoop r file placed r.length.toNat 0 0 x.host = h at hloop ⊢
  have hread : Spares S T x { x with host := h } := by
    refine Spares.of_space hs rfl rfl fun y hy => ?_
    have hout := hspot.quiet y hy
    rw [hloop y, if_neg fun hin => hout (by omega)]
  exact Serves.after hread (Serves.finish hread.inv hpos (hspot.of_space rfl))

variable (hS : x.Held S) (hT : T ⊆ S) (hpos : 0 < r.length.toNat) (file : HostFile)
  (hlen : r.offset % x.space.pageSize ≠ 0 → r.length.toNat + 2 * x.space.page ≤ 2 ^ 64)
include hS hT hpos hlen

theorem Serves.viewAt {base : UInt64}
    (hspot : Spot S T x base (r.length + r.offset % x.space.pageSize)) :
    Serves S T x r.length (x.viewAt r file x.space.pageSize base) := by
  have hroom := x.space.limit_add_page
  have hphase := toNat_phase_lt (x := x) r
  have hend := hspot.inside.2
  have hsum : (r.length + r.offset % x.space.pageSize).toNat =
      r.length.toNat + (r.offset % x.space.pageSize).toNat := by
    by_cases h0 : r.offset % x.space.pageSize = 0
    · rw [h0, UInt64.add_zero, UInt64.toNat_zero, Nat.add_zero]
    · have := hlen h0
      exact toNat_add_of_lt (by omega)
  have hview : (viewLength x.space.pageSize (r.offset % x.space.pageSize + r.length)
      (if file.size > r.offset - r.offset % x.space.pageSize
        then file.size - (r.offset - r.offset % x.space.pageSize) else 0)).toNat ≤
      roundUp x.space.page (r.length + r.offset % x.space.pageSize).toNat := by
    rw [UInt64.add_comm (r.offset % x.space.pageSize)]
    exact (toNat_viewLength _ (by omega)).2
  unfold Sys.viewAt
  dsimp only
  generalize viewLength x.space.pageSize (r.offset % x.space.pageSize + r.length)
    (if file.size > r.offset - r.offset % x.space.pageSize
      then file.size - (r.offset - r.offset % x.space.pageSize) else 0) = rounded at hview ⊢
  have hmap : ∀ y ∈ T, (if rounded = 0 then (false, x.host)
      else x.host.mapFile x.space.pageSize base rounded ⟨true, r.viewWritable⟩
        fun k => file.bytes ((r.offset - r.offset % x.space.pageSize).toNat + k)).2.mem y =
      x.host.mem y := by
    intro y hy
    split
    · rfl
    · refine Host.mapFile_mem fun hin => hspot.quiet y hy ?_
      rw [Host.inSpan_iff] at hin
      omega
  generalize (if rounded = 0 then (false, x.host)
    else x.host.mapFile x.space.pageSize base rounded ⟨true, r.viewWritable⟩
      fun k => file.bytes ((r.offset - r.offset % x.space.pageSize).toNat + k)) = out at hmap ⊢
  obtain ⟨ok, h⟩ := out
  have hmapped : Spares S T x { x with host := h } := Spares.of_space hs rfl rfl hmap
  cases ok with
  | true =>
    refine ⟨Spares.of_space hs rfl rfl hmap, fun answer hok y h1 h2 => ?_⟩
    cases hok
    rw [show x.toHost (Sys.toGuest { x with host := h } (base + r.offset % x.space.pageSize)) =
      base + r.offset % x.space.pageSize from toHost_toGuest _ _,
      toNat_add_of_lt (by omega)] at h1 h2
    exact ⟨.inl (hspot.owned y (by omega) (by omega)),
      .inl (hspot.clear y (mem_guestPages_of_mem (by omega) (by omega)))⟩
  | false =>
    rw [if_neg Bool.false_ne_true]
    by_cases h0 : r.offset % x.space.pageSize = 0
    · rw [if_neg (not_not.mpr h0), h0, UInt64.add_zero]
      rw [h0, UInt64.add_zero] at hspot
      exact Serves.after hmapped (Serves.copy hmapped.inv hpos (hspot.of_space rfl) file)
    · rw [if_pos h0]
      have hback := Spares.release hmapped.inv (hmapped.held hS) hT (by omega)
        (show Inside { x with host := h } base (r.length + r.offset % x.space.pageSize) from
          hspot.inside) hspot.clear
      have hsofar := hmapped.trans hback
      obtain ⟨hnew, hplace⟩ := Spares.allocate hsofar.inv (hsofar.held hS) hT
        (r.recorded ||| kGuestProtWrite) (allocFits_unhinted hpos (by rw [hsofar.page]; omega))
      split
      · exact Serves.error (hsofar.trans hnew) _
      next hne =>
        exact Serves.after (hsofar.trans hnew) (Serves.copy hnew.inv hpos (hplace hne) file)

theorem Serves.view {placed : UInt64} (hspot : Spot S T x placed r.length) :
    Serves S T x r.length (x.mmapView r file placed) := by
  rw [mmapView_eq]
  by_cases h0 : r.offset % x.space.pageSize = 0
  · rw [viewPlace_whole placed h0, if_neg fun h => h.1 h0]
    exact Serves.viewAt hs hS hT hpos file hlen (by rw [h0, UInt64.add_zero]; exact hspot)
  · have hphase := toNat_phase_lt (x := x) r
    have hlen' := hlen h0
    have hsum := toNat_phased hlen'
    have hrel := Spares.release hs hS hT hpos hspot.inside hspot.clear
    have hfits : (x.release placed r.length).2.space.AllocFits
        (r.length + r.offset % x.space.pageSize) 0 :=
      allocFits_unhinted (by omega) (by rw [hrel.page]; omega)
    obtain ⟨hnew, hgot⟩ := Spares.allocate hrel.inv (hrel.held hS) hT
      (r.recorded ||| kGuestProtWrite) hfits
    have hsofar := hrel.trans hnew
    rw [viewPlace_phased placed h0]
    generalize ((x.release placed r.length).2).allocate
      (r.length + r.offset % x.space.pageSize) 0 (r.recorded ||| kGuestProtWrite) = out at *
    have hsize : out.2.space.pageSize = x.space.pageSize :=
      congrArg Geometry.pageSize hsofar.geometry
    split
    · exact Serves.error hsofar _
    next hne =>
      rw [← hsize] at hgot hlen ⊢
      exact Serves.after hsofar (Serves.viewAt hnew.inv (hsofar.held hS) hT hpos file
        (by rw [hsofar.page]; exact hlen) (hgot fun hz => hne ⟨h0, hz⟩))

end

def DisplayApart (x : Sys) (r : MmapRequest) : Prop :=
  ∀ file, r.file = some file → file.isFramebuffer = true → r.display ≠ 0 →
  r.display.toNat + r.length.toNat ≤ x.space.base.toNat ∨ x.space.limit ≤ r.display.toNat

theorem Serves.descriptor (hs : x.space.ListInv) (hS : x.Held S) (hT : T ⊆ S)
    (hpos : 0 < r.length.toNat) {placed : UInt64} (hspot : Spot S T x placed r.length)
    (hlen : r.fixed = false → r.length.toNat + 2 * x.space.page ≤ 2 ^ 64)
    (hdisplay : x.DisplayApart r) : Serves S T x r.length (x.mmapDescriptor r placed) := by
  have hrel := Spares.release hs hS hT hpos hspot.inside hspot.clear
  unfold mmapDescriptor
  cases hfile : r.file with
  | none => exact Serves.error hrel _
  | some file =>
    dsimp only
    split
    next hfb =>
      split
      · exact Serves.error hrel _
      next hne =>
        refine ⟨hrel, fun answer hok y h1 h2 => ?_⟩
        cases hok
        rw [show x.toHost ((x.release placed r.length).2.toGuest r.display) = r.display from
          toHost_toGuest _ _] at h1 h2
        have hout := hdisplay file hfile hfb hne
        refine ⟨.inr ?_, .inr (by omega)⟩
        rw [hrel.geometry]
        omega
    · split
      next hview =>
        refine Serves.view hs hS hT hpos file.host (fun h0 => hlen ?_) hspot
        simpa [h0] using (Bool.and_eq_true_iff.mp hview).2
      · exact Serves.copy hs hpos hspot file.host

/-! ## The whole call -/

theorem mmapZero_mem (x : Sys) (r : MmapRequest) (placed low high : UInt64) {y : Nat}
    (hfit : placed.toNat + r.length.toNat < 2 ^ 64)
    (hy : ¬ (placed.toNat ≤ y ∧ y < placed.toNat + r.length.toNat)) :
    (x.mmapZero r placed low high).host.mem y = x.host.mem y := by
  have hsum := toNat_add_of_lt hfit
  have hmax := toNat_wordMax low placed
  have hmin := toNat_wordMin high (placed + r.length)
  unfold mmapZero
  dsimp only
  split
  next hlt =>
    have hsub := toNat_sub_of_le hlt.le
    change (if Host.inSpan _ _ y then _ else _) = _
    rw [if_neg]
    rw [Host.inSpan_iff]
    omega
  · rfl

theorem Serves.anonymous (hs : x.space.ListInv) (hpos : 0 < r.length.toNat) {placed : UInt64}
    (hspot : Spot S T x placed r.length) (hstale : stale = [] ∨ T = ∅) :
    Serves S T x r.length ((x.mmapAnonymous r placed stale).mmapFinish r placed) := by
  have hlimit := x.space.limit_lt
  have hend := hspot.inside.2
  have hup := le_roundUp x.space.page_pos r.length.toNat
  have hprocess := mmapAnonymous_process x r placed stale
  have hzero : Spares S T x (x.mmapAnonymous r placed stale) := by
    refine Spares.of_space hs (congrArg GuestProcess.space hprocess)
      (numbers_of_calls (congrArg GuestProcess.syscalls hprocess)) fun y hy => ?_
    rcases hstale with rfl | rfl
    · have hout := hspot.quiet y hy
      have hfit : placed.toNat + r.length.toNat < 2 ^ 64 := by omega
      unfold mmapAnonymous
      rw [mmapZero_mem _ _ _ _ _ hfit (fun hin => hout (by omega)),
        mmapZero_mem _ _ _ _ _ hfit (fun hin => hout (by omega))]
      rfl
    · exact absurd hy (Set.notMem_empty y)
  exact Serves.after hzero (Serves.finish hzero.inv hpos
    (hspot.of_space (congrArg GuestProcess.space hprocess)))

theorem Serves.placed (hs : x.space.ListInv) (hS : x.Held S) (hT : T ⊆ S)
    (hpos : 0 < r.length.toNat) {placed : UInt64} (hspot : Spot S T x placed r.length)
    (hlen : r.fixed = false → r.length.toNat + 2 * x.space.page ≤ 2 ^ 64)
    (hdisplay : x.DisplayApart r) (hstale : stale = [] ∨ T = ∅) :
    Serves S T x r.length (if r.anonymous
      then ((x.mmapNoteImage r placed).mmapAnonymous r placed stale).mmapFinish r placed
      else (x.mmapNoteImage r placed).mmapDescriptor r placed) := by
  have hspace := mmapNoteImage_space x r placed
  have hnoted : Spares S T x (x.mmapNoteImage r placed) :=
    Spares.of_space hs hspace (mmapNoteImage_numbers x r placed)
      fun y _ => by rw [mmapNoteImage_host]
  have hspot' := hspot.of_space hspace
  refine Serves.after hnoted ?_
  split
  · exact Serves.anonymous hnoted.inv hpos hspot' hstale
  · refine Serves.descriptor hnoted.inv (hnoted.held hS) hT hpos hspot' ?_ ?_
    · rw [hnoted.page]
      exact hlen
    · unfold DisplayApart
      rw [hnoted.geometry]
      exact hdisplay

def mmapRoom (x : Sys) (r : MmapRequest) : Sys :=
  if x.mmapAddress r != 0 then x.shrinkHeapBelow (x.mmapAddress r) else x

theorem Serves.doMmap_free (hs : (x.mmapRoom r).space.ListInv) (hS : (x.mmapRoom r).Held S)
    (hT : T ⊆ S) (hgeo : (x.mmapRoom r).space.toGeometry = x.space.toGeometry)
    (hfree : ¬ (r.fixed = true ∧ x.mmapAddress r ≠ 0)) (hpos : 0 < r.length.toNat)
    (hfit : x.MmapFits r) (hdisplay : x.DisplayApart r) :
    Serves S T (x.mmapRoom r) r.length (x.doMmap r) := by
  have hlen : r.length ≠ 0 := ne_zero_of_toNat_pos (by omega)
  obtain ⟨hshort, hreach⟩ := hfit.free (by
    rcases not_and_or.mp hfree with hno | hno
    · exact .inl (Bool.eq_false_iff.mpr hno)
    · exact .inr (not_not.mp hno))
  have hplace : x.mmapPlace r (x.mmapAddress r) =
      let out := (x.mmapRoom r).allocate r.length (x.mmapAddress r)
        (r.recorded ||| kGuestProtWrite)
      if out.1 = 0 then (none, [], out.2) else (some out.1, [], out.2) := by
    unfold mmapPlace
    rw [if_neg (by simpa using hfree)]
    rfl
  have hpage : (x.mmapRoom r).space.page = x.space.page := congrArg Geometry.page hgeo
  have hfits : (x.mmapRoom r).space.AllocFits r.length (x.mmapAddress r) :=
    ⟨hpos, by omega, by rw [hpage]; exact hreach⟩
  obtain ⟨hnew, hspot⟩ := Spares.allocate hs hS hT (r.recorded ||| kGuestProtWrite) hfits
  dsimp only at hplace
  split at hplace
  · rw [doMmap_refused hlen hplace]
    exact Serves.error hnew _
  next hne =>
    rw [doMmap_placed hlen hplace]
    refine Serves.after hnew (Serves.placed hnew.inv (hnew.held hS) hT hpos (hspot hne) ?_ ?_
      (.inl rfl))
    · rw [hnew.page, hpage]
      exact fun _ => hshort
    · unfold DisplayApart
      rw [hnew.geometry, hgeo]
      exact hdisplay

def FixedGranted (x : Sys) (r : MmapRequest) : Prop :=
  (Call.commitFixed (x.mmapAddress r) r.length (r.recorded ||| kGuestProtWrite)).Granted
    ⟨x.space, (x.replaceSharedMappingsIn (x.mmapAddress r) (x.mmapAddress r + r.length)).host⟩

theorem notifyContentsReplaced_calls (x : Sys) (b e : UInt64) :
    (x.notifyContentsReplaced b e).process.syscalls = x.process.syscalls := by
  unfold notifyContentsReplaced
  split <;> rfl

theorem notifyContentsReplaced_committed (x : Sys) (b e : UInt64) :
    (x.notifyContentsReplaced b e).space.committed = x.space.committed := by
  unfold notifyContentsReplaced
  split
  · exact (x.space.notify_fields b e).2.2.1
  · rfl

theorem mmapPlace_fixed_owned (hs : x.space.ListInv)
    (hfixed : r.fixed = true ∧ x.mmapAddress r ≠ 0) (hpos : 0 < r.length.toNat)
    (hin : x.Inside (x.mmapAddress r) r.length) (hgrant : x.FixedGranted r) :
    (x.mmapPlace r (x.mmapAddress r)).2.2.process.syscalls = x.process.syscalls ∧
    ∀ placed, (x.mmapPlace r (x.mmapAddress r)).1 = some placed →
    placed = x.mmapAddress r ∧ ∀ y, placed.toNat ≤ y → y < placed.toNat + r.length.toNat →
      Covers (x.mmapPlace r (x.mmapAddress r)).2.2.space.committed y := by
  have hproc₁ : (x.replaceSharedMappingsIn (x.mmapAddress r)
      (x.mmapAddress r + r.length)).process = x.process := rfl
  unfold FixedGranted at hgrant
  unfold mmapPlace
  rw [if_pos (by simp [hfixed]), if_neg (by simp [contains_of_inside hin])]
  dsimp only
  generalize x.replaceSharedMappingsIn (x.mmapAddress r) (x.mmapAddress r + r.length) = x₁ at *
  have hspace₁ : x₁.space = x.space := congrArg GuestProcess.space hproc₁
  have hcalls₁ : x₁.process.syscalls = x.process.syscalls := congrArg GuestProcess.syscalls hproc₁
  have howned := commitFixed_owned hs x₁.host (r.recorded ||| kGuestProtWrite) hpos hin.1 hin.2
    hgrant
  have hdown := roundDown_le x.space.page (x.mmapAddress r).toNat
  have hup := le_roundUp x.space.page_pos ((x.mmapAddress r).toNat + r.length.toNat)
  unfold Sys.commitFixed
  rw [hspace₁]
  generalize x.space.commitFixed x₁.host (x.mmapAddress r) r.length
    (r.recorded ||| kGuestProtWrite) = out at *
  split
  next hok =>
    have hcov : ∀ y, (x.mmapAddress r).toNat ≤ y →
        y < (x.mmapAddress r).toNat + r.length.toNat → Covers out.space.committed y := by
      intro y h1 h2
      rcases howned with ⟨hno, _⟩ | hall
      · exact nomatch hok.symm.trans hno
      · by_contra hnot
        exact hall y (by omega) (by omega) (tagAt_eq_none.mpr hnot)
    dsimp only
    split
    · refine ⟨(notifyContentsReplaced_calls _ _ _).trans hcalls₁, ?_⟩
      rintro _ ⟨⟩
      refine ⟨rfl, fun y h1 h2 => ?_⟩
      rw [notifyContentsReplaced_committed]
      exact hcov y h1 h2
    · refine ⟨hcalls₁, ?_⟩
      rintro _ ⟨⟩
      exact ⟨rfl, hcov⟩
  · exact ⟨hcalls₁, fun _ h => (nomatch h)⟩

theorem Spares.placeFixed (hs : x.space.ListInv) (S : Set Nat)
    (hfixed : r.fixed = true ∧ x.mmapAddress r ≠ 0) (hpos : 0 < r.length.toNat)
    (hin : x.Inside (x.mmapAddress r) r.length) (hgrant : x.FixedGranted r) :
    Spares S ∅ x (x.mmapPlace r (x.mmapAddress r)).2.2 ∧
    ∀ placed, (x.mmapPlace r (x.mmapAddress r)).1 = some placed →
    (∀ y ∈ guestPages (x.mmapAddress r) r.length, y ∉ S) →
    Spot S ∅ (x.mmapPlace r (x.mmapAddress r)).2.2 placed r.length := by
  have hplaces := placesAny_fixed hs hfixed.1 hfixed.2 hpos hin
  obtain ⟨hcalls, howned⟩ := mmapPlace_fixed_owned hs hfixed hpos hin hgrant
  have hretains := hplaces.retains (congrArg LinuxSyscalls.heapLimit hcalls)
  refine ⟨⟨hplaces.inv, hplaces.geometry, numbers_of_calls hcalls, fun y _ => hretains.covers y,
    fun y hy => absurd hy (Set.notMem_empty y)⟩, fun placed hplaced hclear => ?_⟩
  obtain ⟨rfl, hcov⟩ := howned placed hplaced
  exact ⟨hplaces.inside _ hplaced, hcov, hclear, fun y hy => absurd hy (Set.notMem_empty y)⟩

theorem mmapPlace_outside (hfixed : r.fixed = true ∧ x.mmapAddress r ≠ 0)
    (hout : ¬ x.space.contains (x.mmapAddress r) r.length = true) :
    x.mmapPlace r (x.mmapAddress r) = (none, [], x) := by
  unfold mmapPlace
  rw [if_pos (by simp [hfixed]), if_pos (by simp [hout])]

theorem Serves.doMmap_fixed (hs : x.space.ListInv) (hS : x.Held S)
    (hfixed : r.fixed = true ∧ x.mmapAddress r ≠ 0) (hpos : 0 < r.length.toNat)
    (hfit : x.MmapFits r) (hgrant : x.FixedGranted r) (hdisplay : x.DisplayApart r)
    (hclear : ∀ y ∈ guestPages (x.mmapAddress r) r.length, y ∉ S) :
    Serves S ∅ x r.length (x.doMmap r) := by
  have hlen : r.length ≠ 0 := ne_zero_of_toNat_pos (by omega)
  by_cases hc : x.space.contains (x.mmapAddress r) r.length = true
  · obtain ⟨hplace, hspot⟩ := Spares.placeFixed hs S hfixed hpos
      (contains_mem (hfit.fixed hfixed.1 hfixed.2) hc) hgrant
    rcases hq : x.mmapPlace r (x.mmapAddress r) with ⟨_ | placed, _, _⟩
    · rw [doMmap_refused hlen hq]
      rw [hq] at hplace
      exact Serves.error hplace _
    · rw [doMmap_placed hlen hq]
      rw [hq] at hplace hspot
      refine Serves.after hplace (Serves.placed hplace.inv (hplace.held hS) (Set.empty_subset S)
        hpos (hspot placed rfl hclear) (fun hno => nomatch hno.symm.trans hfixed.1) ?_ (.inr rfl))
      unfold DisplayApart
      rw [hplace.geometry]
      exact hdisplay
  · rw [doMmap_refused hlen (mmapPlace_outside hfixed hc)]
    exact Serves.error (Spares.refl hs _ _) _

def Unopened (r : MmapRequest) : Prop :=
  r.anonymous = false ∧ ∀ file, r.file = some file → file.isFramebuffer = true ∧ r.display = 0

theorem mmapDescriptor_unopened (hfixed : r.fixed = true) (hanon : r.anonymous = false)
    {placed : UInt64} {e : Nat} (herr : (x.mmapDescriptor r placed).ret = .error e) :
    Unopened r := by
  refine ⟨hanon, fun file hfile => ?_⟩
  unfold mmapDescriptor at herr
  rw [hfile] at herr
  dsimp only at herr
  split at herr
  next hfb =>
    split at herr
    next h0 => exact ⟨hfb, h0⟩
    · cases herr
  · split at herr
    next hview =>
      have h0 : r.offset % x.space.pageSize = 0 := by
        simpa [hfixed] using (Bool.and_eq_true_iff.mp hview).2
      rw [mmapView_eq, if_neg fun h => h.1 h0] at herr
      exact absurd h0 (viewAt_error herr).1
    · exact nomatch ((mmapFinish_spec _ r _).1.symm.trans herr)

theorem Spares.fixed_error (hs : x.space.ListInv) (S : Set Nat)
    (hfixed : r.fixed = true ∧ x.mmapAddress r ≠ 0) (hpos : 0 < r.length.toNat)
    (hfit : x.MmapFits r) (hgrant : x.FixedGranted r) (hopen : ¬ Unopened r) {e : Nat}
    (herr : (x.doMmap r).ret = .error e) : Spares S ∅ x (x.doMmap r).sys := by
  have hlen : r.length ≠ 0 := ne_zero_of_toNat_pos (by omega)
  by_cases hc : x.space.contains (x.mmapAddress r) r.length = true
  · obtain ⟨hplace, _⟩ := Spares.placeFixed hs S hfixed hpos
      (contains_mem (hfit.fixed hfixed.1 hfixed.2) hc) hgrant
    rcases hq : x.mmapPlace r (x.mmapAddress r) with ⟨_ | _, _, _⟩
    · rw [doMmap_refused hlen hq]
      rw [hq] at hplace
      exact hplace
    · rw [doMmap_placed hlen hq] at herr
      split at herr
      · exact nomatch ((mmapFinish_spec _ r _).1.symm.trans herr)
      next hanon =>
        exact absurd (mmapDescriptor_unopened hfixed.1 (Bool.eq_false_iff.mpr hanon) herr) hopen
  · rw [doMmap_refused hlen (mmapPlace_outside hfixed hc)]
    exact Spares.refl hs _ _

/-! ## munmap and mprotect -/

section

variable (hs : x.space.ListInv)
include hs

theorem munmap_cases (hfit : (x.toHost a).toNat + n.toNat + 4096 ≤ 2 ^ 64) :
    ∃ x₁ : Sys, x₁.space = x.space ∧ x₁.numbers = x.numbers ∧
    (x.munmap a n = ⟨.error einval, x₁⟩ ∨ 0 < n.toNat ∧ x₁.Inside (x.toHost a) n ∧
        x.munmap a n = ⟨.ok 0, (x₁.release (x.toHost a) n).2⟩) := by
  unfold Sys.munmap
  dsimp only
  generalize hx : Sys.replaceSharedMappingsIn _ _ _ = x₁
  have hspace : x₁.space = x.space := by
    rw [← hx]
    rfl
  refine ⟨x₁, hspace, by rw [← hx]; rfl, ?_⟩
  rw [← hspace] at hs
  rcases release_cases hfit with heq | ⟨hpos, hin⟩
  · refine .inl ?_
    unfold Sys.release
    rw [heq]
    rfl
  · refine .inr ⟨hpos, hin, ?_⟩
    rw [show (x₁.release (x.toHost a) n).1 = true from (release_spec hs x₁.host hpos hin.1 hin.2).1]
    rfl

theorem Spares.munmap (hS : x.Held S) (hfit : (x.toHost a).toNat + n.toNat + 4096 ≤ 2 ^ 64)
    (hclear : ∀ y ∈ guestPages (x.toHost a) n, y ∉ S) : Spares S ∅ x (x.munmap a n).sys := by
  obtain ⟨x₁, hspace, hnumbers, hcases⟩ := munmap_cases hs hfit
  have hsame : Spares S ∅ x x₁ :=
    Spares.of_space hs hspace hnumbers fun y hy => absurd hy (Set.notMem_empty y)
  rcases hcases with heq | ⟨hpos, hin, heq⟩
  · rw [heq]
    exact hsame
  · rw [heq]
    exact hsame.trans (Spares.release hsame.inv (hsame.held hS) (Set.empty_subset S) hpos hin
      hclear)

theorem Spares.munmap_error (S : Set Nat) (hfit : (x.toHost a).toNat + n.toNat + 4096 ≤ 2 ^ 64)
    {e : Nat} (herr : (x.munmap a n).ret = .error e) : Spares S ∅ x (x.munmap a n).sys := by
  obtain ⟨_, hspace, hnumbers, heq | ⟨_, _, heq⟩⟩ := munmap_cases hs hfit
  · rw [heq]
    exact Spares.of_space hs hspace hnumbers fun y hy => absurd hy (Set.notMem_empty y)
  · rw [heq] at herr
    cases herr

theorem Spares.mprotect (S : Set Nat) (protection : UInt32)
    (hfit : (x.toHost a).toNat + n.toNat + x.space.page ≤ 2 ^ 64)
    (hdeg : ¬ x.space.Degenerate (x.toHost a) n) :
    Spares S ∅ x (x.mprotect a n protection).sys := by
  obtain ⟨hinv, hgeo, hre⟩ := protect_spec hs x.host (guestProtection protection) hfit hdeg
  refine ⟨hinv, hgeo, rfl, fun y _ hc => ?_, fun y hy => absurd hy (Set.notMem_empty y)⟩
  obtain ⟨t, ht⟩ := Option.ne_none_iff_exists'.mp (mt tagAt_eq_none.mp (not_not.mpr hc))
  by_contra hno
  have hnone : (x.mprotect a n protection).sys.space.layout.attr y = none := tagAt_eq_none.mpr hno
  by_cases hin : roundDown x.space.page (x.toHost a).toNat ≤ y ∧
      y < roundUp x.space.page ((x.toHost a).toNat + n.toNat)
  · obtain ⟨q, hq, _⟩ := hre.inside y t hin.1 hin.2 ht
    exact nomatch hnone.symm.trans hq
  · exact nomatch (hnone.symm.trans (hre.outside y hin)).trans ht

end

end Sys

end Fathom
