import Fathom.Proofs.Heap

/-!
# A mapping that moves

To grow a mapping `mremap` allocates, copies, and releases the old pages; to shrink one it
does nothing. It does what it should exactly if what it is given is a mapping.
-/

namespace Fathom

open Lib Spanned GuestAddressSpace

namespace GuestAddressSpace

variable {s : GuestAddressSpace}

theorem ListInv.covers_touched (hs : s.ListInv) {b e : Nat}
    (hall : ∀ y, b ≤ y → y < e → Covers s.committed y) {y : Nat} (hy : y ∈ touched 4096 b e) :
    Covers s.committed y := by
  obtain ⟨z, hz, hpage⟩ := hy
  obtain ⟨r, hr, hin⟩ := hall z hz.1 hz.2
  obtain ⟨hlow, hhigh⟩ := hs.committedEdges r hr
  exact ⟨r, hr, page_subset_span (by decide) hlow hhigh hin hpage.symm⟩

theorem ListInv.covered_fits (hs : s.ListInv) {b e : Nat} (hbe : b < e)
    (hall : ∀ y, b ≤ y → y < e → Covers s.committed y) : e + 4096 ≤ 2 ^ 64 := by
  obtain ⟨r, hr, hin⟩ := hall (e - 1) (by omega) (by omega)
  have hfits := hs.committed.fits r hr
  have hhigh := (hs.committedEdges r hr).2
  have hlast := hin.2
  omega

theorem release_thins (hfits : Fits s.committed) (h : Host) (a n : UInt64) {y : Nat}
    (hy : Covers (s.release h a n).space.committed y) : Covers s.committed y :=
  ((covers_release hfits h a n y).mp hy).1

theorem allocate_wrapped_refused (hs : s.ListInv) (h : Host) {n : UInt64} (p : Prot)
    (hn : 2 ^ 64 < n.toNat + s.page) (hret : (s.allocate h n 0 p).ret = 0) :
    (s.allocate h n 0 p).space.layout = s.layout ∧
    ∀ y, s.OffLimits y → (s.allocate h n 0 p).host.mem y = h.mem y := by
  obtain ⟨k, _, -, hk⟩ := s.page_pow
  have hzero : s.alignUp n = 0 := maskUp_wraps hk hn
  simp only [allocate] at hret ⊢
  split at hret
  next h0 =>
    rw [if_pos h0]
    exact ⟨rfl, fun _ _ => rfl⟩
  next hne =>
    rw [if_neg hne]
    rw [hzero, takeHint_zero] at hret ⊢
    simp only at hret ⊢
    split at hret
    next a free hfound =>
      obtain ⟨htake, hcov, -⟩ := hs.findFit_nothing hfound
      have harena := hs.free_mem hcov
      have hbase := s.base_pos
      simp only [commitTaken, UInt64.add_zero] at hret ⊢
      split at hret
      · have ha : a = 0 := hret
        rw [ha, UInt64.toNat_zero] at harena
        omega
      next hno =>
        rw [if_neg hno]
        refine ⟨?_, fun y hy => ?_⟩
        · rw [returnFreeExtent]
          exact Layout.ext rfl (Set.ext fun y => takeFreeExtent_nothing hs.free.wf.fits htake y)
        · exact commitRange_kept hs.committed h harena.1 (Nat.le_of_lt harena.2) _ hy
    · exact ⟨rfl, fun _ _ => rfl⟩

end GuestAddressSpace

namespace Sys

variable {x : Sys} {address oldSize newSize flags : UInt64}

/-! ## What is asked -/

def mappingPages (a n : UInt64) : Set Nat := touched 4096 a.toNat (a.toNat + n.toNat)

structure Remaps (x x' : Sys) (a oldSize b newSize : UInt64) : Prop where
  mapped : ∀ i < newSize.toNat, Covers x'.space.committed (b.toNat + i)
  first : ∀ i < min oldSize.toNat newSize.toNat,
    x'.host.mem (b.toNat + i) = x.host.mem (a.toNat + i)
  zero : ∀ i, oldSize.toNat ≤ i → i < newSize.toNat → x'.host.mem (b.toNat + i) = 0
  gone : ∀ y ∈ mappingPages a oldSize, y ∉ mappingPages b newSize → ¬ Covers x'.space.committed y
  others : ∀ y, Covers x.space.committed y → y ∉ mappingPages a oldSize →
    tagAt x'.space.committed y = tagAt x.space.committed y ∧ x'.host.mem y = x.host.mem y

section

variable (x : Sys) (address oldSize newSize flags : UInt64)

def mremapReads : Set Nat :=
  {y | ¬ newSize ≤ oldSize ∧ flags &&& kMremapMayMove ≠ 0 ∧
    (x.allocate newSize 0 (kGuestProtRead ||| kGuestProtWrite)).1 ≠ 0 ∧
    y ∈ bytesOf (x.toHost address) oldSize}

structure Obeys (out : SysOut) : Prop where
  reads : ∀ y ∈ x.mremapReads address oldSize newSize flags, Covers x.space.committed y
  ok : ∀ answer, out.ret = .ok answer →
    x.Remaps out.sys (x.toHost address) oldSize (x.toHost answer) newSize
  error : ∀ e, out.ret = .error e → out.sys.space.layout = x.space.layout ∧
    ∀ y, x.space.OffLimits y → out.sys.host.mem y = x.host.mem y

/-- The mapping shrinks to what is there and nothing was behind that; or it
must not move; or there is no room for it; or it is there, in the arena, and the
new size can be rounded. -/
def MremapSafe : Prop :=
  let a := x.toHost address
  if newSize ≤ oldSize then
    (∀ y ∈ bytesOf a newSize, Covers x.space.committed y) ∧
      ∀ y ∈ mappingPages a oldSize, y ∉ mappingPages a newSize → ¬ Covers x.space.committed y
  else flags &&& kMremapMayMove ≠ 0 →
    (x.allocate newSize 0 (kGuestProtRead ||| kGuestProtWrite)).1 ≠ 0 →
    newSize.toNat + x.space.page ≤ 2 ^ 64 ∧
      (∀ y ∈ bytesOf a oldSize, Covers x.space.committed y) ∧ (oldSize ≠ 0 → x.Inside a oldSize)

end

/-! ## What the steps do -/

theorem mem_mappingPages {a n : UInt64} (hn : n ≠ 0) {y : Nat} :
    y ∈ mappingPages a n ↔ y ∈ guestPages a n := by
  have hpos : 0 < n.toNat := toNat_pos hn
  exact mem_touched_iff (by decide) (by omega)

theorem allocate_tag (hs : x.space.ListInv) {n : UInt64} (p : Prot)
    (hfit : x.space.AllocFits n 0) {y : Nat} (hy : Covers x.space.committed y) :
    tagAt (x.allocate n 0 p).2.space.committed y = tagAt x.space.committed y := by
  obtain ⟨-, -, ⟨-, hlay⟩ | ⟨a, m, -, htakes, -, hlay⟩⟩ := allocate_spec hs x.host p hfit
  · exact congrFun (congrArg Layout.attr hlay) y
  · refine (congrFun (congrArg Layout.attr hlay) y).trans (if_neg fun hin => ?_)
    exact hs.not_covers (htakes.free y hin.1 hin.2) hy

theorem release_mapping (hs : x.space.ListInv) {a n : UInt64} (hin : n ≠ 0 → x.Inside a n) :
    (∀ y ∈ mappingPages a n, ¬ Covers (x.release a n).2.space.committed y) ∧
    (∀ y ∉ mappingPages a n,
      tagAt (x.release a n).2.space.committed y = tagAt x.space.committed y) ∧
    ∀ y, (x.release a n).2.space.OffLimits y → (x.release a n).2.host.mem y = x.host.mem y := by
  by_cases hn : n = 0
  · have hnone : (x.release a n).2 = x := by
      rw [hn]
      rfl
    rw [hnone]
    refine ⟨fun y hy => ?_, fun _ _ => rfl, fun _ _ => rfl⟩
    obtain ⟨z, hz, -⟩ := hy
    rw [hn, UInt64.toNat_zero, Set.mem_Ico] at hz
    omega
  · have hpos : 0 < n.toNat := toNat_pos hn
    have hrel := releases hs hpos (hin hn)
    have hexact := (release_exact hs x.host a n (hin hn).1 (hin hn).2).1 hpos
    refine ⟨fun y hy hcov => ?_, fun y hy => hexact.kept y ?_, hrel.kept⟩
    · exact ((hrel.covers y).mp hcov).2 ((mem_mappingPages hn).mp hy)
    · exact fun hpages => hy ((mem_mappingPages hn).mpr hpages)

def mremapFilled (x : Sys) (placed oldAddress oldSize newSize : UInt64) : Sys :=
  (x.store placed oldSize fun y => x.host.mem (y - placed.toNat + oldAddress.toNat)).store
    (placed + oldSize) (newSize - oldSize) fun _ => 0

theorem mremapFilled_mem (placed a : UInt64) (hgrows : oldSize.toNat < newSize.toNat)
    (hfits : placed.toNat + newSize.toNat < 2 ^ 64) (y : Nat) :
    (x.mremapFilled placed a oldSize newSize).host.mem y =
      if placed.toNat ≤ y ∧ y < placed.toNat + oldSize.toNat then
        x.host.mem (y - placed.toNat + a.toNat)
      else if placed.toNat ≤ y ∧ y < placed.toNat + newSize.toNat then 0
      else x.host.mem y := by
  have hsum : (placed + oldSize).toNat = placed.toNat + oldSize.toNat := toNat_add_of_lt (by omega)
  have hrest : (newSize - oldSize).toNat = newSize.toNat - oldSize.toNat :=
    toNat_sub_of_le hgrows.le
  simp only [mremapFilled, store, Host.store_mem, hsum]
  by_cases hold : placed.toNat ≤ y ∧ y < placed.toNat + oldSize.toNat
  · rw [if_neg (by omega), if_pos hold, if_pos hold]
  · simp only [if_neg hold]
    refine if_congr ?_ rfl rfl
    omega

section

variable (hgrows : ¬ newSize ≤ oldSize) (hmay : flags &&& kMremapMayMove ≠ 0)
include hgrows hmay

theorem mremap_moved (hne : (x.allocate newSize 0 (kGuestProtRead ||| kGuestProtWrite)).1 ≠ 0) :
    let out := x.allocate newSize 0 (kGuestProtRead ||| kGuestProtWrite)
    let a := x.toHost address
    x.mremap address oldSize newSize flags =
      ⟨.ok (x.toGuest out.1),
        ((out.2.mremapFilled out.1 a oldSize newSize).release a oldSize).2⟩ := by
  simp only [mremap, if_neg hgrows, if_neg hmay, if_neg hne]
  rfl

theorem mremap_refused (hno : (x.allocate newSize 0 (kGuestProtRead ||| kGuestProtWrite)).1 = 0) :
    x.mremap address oldSize newSize flags =
      ⟨.error enomem, (x.allocate newSize 0 (kGuestProtRead ||| kGuestProtWrite)).2⟩ := by
  simp only [mremap, if_neg hgrows, if_neg hmay, if_pos hno]

end

/-! ## The contract -/

section Moves

variable (hs : x.space.ListInv) (hgrows : ¬ newSize ≤ oldSize)
  (hne : (x.allocate newSize 0 (kGuestProtRead ||| kGuestProtWrite)).1 ≠ 0) {a : UInt64}
include hs hgrows hne

theorem remaps_moved (hfit : newSize.toNat + x.space.page ≤ 2 ^ 64)
    (hold : ∀ y ∈ bytesOf a oldSize, Covers x.space.committed y)
    (hin : oldSize ≠ 0 → x.Inside a oldSize) :
    let out := x.allocate newSize 0 (kGuestProtRead ||| kGuestProtWrite)
    x.Remaps ((out.2.mremapFilled out.1 a oldSize newSize).release a oldSize).2 a oldSize out.1
      newSize := by
  intro out
  rw [UInt64.not_le, UInt64.lt_iff_toNat_lt] at hgrows
  have hfits : x.space.AllocFits newSize 0 := allocFits_unhinted (by omega) hfit
  have halloc : x.Allocates newSize out := allocates hs _ hfits
  have htag : ∀ y, Covers x.space.committed y →
      tagAt out.2.space.committed y = tagAt x.space.committed y := fun y => allocate_tag hs _ hfits
  have hroom := halloc.room hne
  have hlimit := x.space.limit_lt
  have hup := le_roundUp x.space.page_pos newSize.toNat
  have hmem := mremapFilled_mem (x := out.2) out.1 a hgrows (by omega)
  obtain ⟨hgone, hkept, hquiet⟩ := release_mapping (x := out.2.mremapFilled out.1 a oldSize newSize)
    halloc.inv fun h0 => by
      have hinside := hin h0
      unfold Inside at hinside
      rw [← halloc.geometry] at hinside
      exact hinside
  generalize ((out.2.mremapFilled out.1 a oldSize newSize).release a oldSize).2 = x' at *
  have hcommitted : ∀ y ∈ mappingPages a oldSize, Covers x.space.committed y := fun y hy =>
    hs.covers_touched (fun z h1 h2 => hold z ⟨h1, h2⟩) hy
  -- The new mapping has nothing of the old one's pages.
  have hnew : ∀ i < newSize.toNat, Covers x'.space.committed (out.1.toNat + i) := by
    intro i hi
    have hfree := halloc.free hne (out.1.toNat + i) (by omega) (by omega)
    rw [← tagAt_isSome, hkept _ fun hy => hfree (hcommitted _ hy), tagAt_isSome]
    exact (halloc.some hne _).mpr (.inr ⟨by omega, by omega⟩)
  have hvalue : ∀ i < newSize.toNat, x'.host.mem (out.1.toNat + i) =
      if i < oldSize.toNat then out.2.host.mem (i + a.toNat) else 0 := by
    intro i hi
    rw [hquiet _ (.inl (hnew i hi)), hmem, Nat.add_sub_cancel_left]
    split
    next hlow => rw [if_pos (by omega)]
    next hhigh => rw [if_pos (by omega), if_neg (by omega)]
  refine ⟨hnew, fun i hi => ?_, fun i hlow hi => ?_, fun y hy _ => hgone y hy, fun y hy hout => ?_⟩
  · rw [hvalue i (by omega), if_pos (by omega), Nat.add_comm]
    exact halloc.kept _ (.inl (hold _ ⟨by omega, by omega⟩))
  · rw [hvalue i hi, if_neg (by omega)]
  · have hsame : tagAt x'.space.committed y = tagAt x.space.committed y :=
      (hkept y hout).trans (htag y hy)
    refine ⟨hsame, ?_⟩
    have hcov : Covers x'.space.committed y := by
      rw [← tagAt_isSome, hsame, tagAt_isSome]
      exact hy
    have happart : ¬ (out.1.toNat ≤ y ∧ y < out.1.toNat + newSize.toNat) := fun h =>
      halloc.free hne y h.1 (by omega) hy
    rw [hquiet y (.inl hcov), hmem, if_neg (by omega), if_neg happart]
    exact halloc.kept y (.inl hy)

theorem not_remaps_wrapped (hwraps : 2 ^ 64 < newSize.toNat + x.space.page) :
    let out := x.allocate newSize 0 (kGuestProtRead ||| kGuestProtWrite)
    ¬ x.Remaps ((out.2.mremapFilled out.1 a oldSize newSize).release a oldSize).2 a oldSize out.1
      newSize := by
  intro out h
  rw [UInt64.not_le, UInt64.lt_iff_toNat_lt] at hgrows
  obtain ⟨hsame, hfree, -⟩ := allocate_wrapped hs x.host _ hwraps hne
  have hfirst : Covers out.2.space.committed out.1.toNat :=
    release_thins hsame.fits _ a oldSize (h.mapped 0 (by omega))
  rw [← tagAt_isSome, Option.isSome_iff_ne_none] at hfirst
  refine hfirst ((hsame.same.owned out.1.toNat).mpr ?_)
  exact hs.apart _ hfree

theorem not_remaps_outside (hfit : newSize.toNat + x.space.page ≤ 2 ^ 64)
    (hold : ∀ y ∈ bytesOf a oldSize, Covers x.space.committed y) (hsome : oldSize ≠ 0)
    (hout : ¬ x.Inside a oldSize) :
    let out := x.allocate newSize 0 (kGuestProtRead ||| kGuestProtWrite)
    ¬ x.Remaps ((out.2.mremapFilled out.1 a oldSize newSize).release a oldSize).2 a oldSize out.1
      newSize := by
  intro out h
  rw [UInt64.not_le, UInt64.lt_iff_toNat_lt] at hgrows
  have hpos : 0 < oldSize.toNat := toNat_pos hsome
  have hfits : x.space.AllocFits newSize 0 := allocFits_unhinted (by omega) hfit
  have halloc : x.Allocates newSize out := allocates hs _ hfits
  have hfirst : Covers x.space.committed a.toNat := hold _ ⟨le_rfl, by omega⟩
  have hwhole := hs.covered_fits (show a.toNat < a.toNat + oldSize.toNat by omega)
    fun y h1 h2 => hold y ⟨h1, h2⟩
  have hrefused : ((out.2.mremapFilled out.1 a oldSize newSize).release a oldSize).2 =
      out.2.mremapFilled out.1 a oldSize newSize := by
    have hspace := release_refused
      (h := (out.2.mremapFilled out.1 a oldSize newSize).host) (by omega) (by
        unfold Inside at hout
        rw [halloc.geometry]
        omega)
    change (out.2.mremapFilled out.1 a oldSize newSize).withSpace
      (out.2.space.release _ a oldSize).space (out.2.space.release _ a oldSize).host = _
    rw [hspace]
    rfl
  rw [hrefused] at h
  have hkept : Covers out.2.space.committed a.toNat := (halloc.some hne _).mpr (.inl hfirst)
  refine h.gone a.toNat ⟨a.toNat, ⟨le_rfl, by omega⟩, rfl⟩ (fun hy => ?_) hkept
  rw [mem_mappingPages (by
    rintro rfl
    simp at hgrows)] at hy
  obtain ⟨h1, h2⟩ := guestPages_subset x.space.guestPage_dvd_page x.space.page_pos
    (halloc.aligned hne) hy
  exact halloc.free hne _ h1 h2 hfirst

end Moves

theorem obeys_shrink_iff (hshrinks : newSize ≤ oldSize) :
    x.Obeys address oldSize newSize flags ⟨.ok address, x⟩ ↔
    x.MremapSafe address oldSize newSize flags := by
  simp only [MremapSafe, if_pos hshrinks]
  rw [UInt64.le_iff_toNat_le] at hshrinks
  constructor
  · intro h
    have hmaps := h.ok address rfl
    refine ⟨fun y hy => ?_, hmaps.gone⟩
    have hcov := hmaps.mapped (y - (x.toHost address).toNat) (by
      have := hy.1
      have := hy.2
      omega)
    rwa [Nat.add_sub_cancel' hy.1] at hcov
  · rintro ⟨hmapped, hgone⟩
    refine ⟨fun y hy => absurd hshrinks fun h => hy.1 (UInt64.le_iff_toNat_le.mpr h), ?_,
      fun e herr => (nomatch herr)⟩
    rintro _ hanswer
    cases hanswer
    exact ⟨fun i hi => hmapped _ ⟨by omega, by omega⟩, fun i _ => rfl, fun i h1 h2 => by omega,
      hgone, fun y _ _ => ⟨rfl, rfl⟩⟩

/-- For every arena and every argument, `mremap` does what it should exactly when
the mapping it is given is one. -/
theorem mremap_obeys_iff (hs : x.space.ListInv) (address oldSize newSize flags : UInt64) :
    x.Obeys address oldSize newSize flags (x.mremap address oldSize newSize flags) ↔
    x.MremapSafe address oldSize newSize flags := by
  by_cases hshrinks : newSize ≤ oldSize
  · simp only [mremap, if_pos hshrinks]
    exact obeys_shrink_iff hshrinks
  simp only [MremapSafe, if_neg hshrinks]
  by_cases hmay : flags &&& kMremapMayMove = 0
  · simp only [mremap, if_neg hshrinks, if_pos hmay]
    refine iff_of_true ⟨fun y hy => absurd hmay hy.2.1, fun _ hok => (nomatch hok),
      fun _ _ => ⟨rfl, fun _ _ => rfl⟩⟩ fun hno => absurd hmay hno
  by_cases hno : (x.allocate newSize 0 (kGuestProtRead ||| kGuestProtWrite)).1 = 0
  · rw [mremap_refused hshrinks hmay hno]
    refine iff_of_true ⟨fun y hy => absurd hno hy.2.2.1, fun _ hok => (nomatch hok), fun _ _ => ?_⟩
      fun _ hne => absurd hno hne
    by_cases hfit : newSize.toNat + x.space.page ≤ 2 ^ 64
    · have hgrows := UInt64.lt_iff_toNat_lt.mp (UInt64.not_le.mp hshrinks)
      have hfits : x.space.AllocFits newSize 0 := allocFits_unhinted (by omega) hfit
      refine ⟨?_, (allocates hs _ hfits).kept⟩
      obtain ⟨-, -, ⟨-, hlay⟩ | ⟨a, m, -, htakes, hret, -⟩⟩ :=
        allocate_spec hs x.host (kGuestProtRead ||| kGuestProtWrite) hfits
      · exact hlay
      · have harena := (htakes.mem_arena hs).1
        have hbase := x.space.base_pos
        have hzero : a = 0 := hret.symm.trans hno
        rw [hzero, UInt64.toNat_zero] at harena
        omega
    · exact allocate_wrapped_refused hs x.host _ (by omega) hno
  rw [mremap_moved hshrinks hmay hno]
  simp only [hmay, hno, ne_eq, not_false_eq_true, true_implies]
  constructor
  · intro h
    have hmaps := h.ok _ rfl
    rw [toHost_toGuest] at hmaps
    have hold : ∀ y ∈ bytesOf (x.toHost address) oldSize, Covers x.space.committed y :=
      fun y hy => h.reads y ⟨hshrinks, hmay, hno, hy⟩
    have hfit : newSize.toNat + x.space.page ≤ 2 ^ 64 := by
      by_contra hwraps
      exact not_remaps_wrapped hs hshrinks hno (by omega) hmaps
    refine ⟨hfit, hold, fun hsome => ?_⟩
    by_contra hout
    exact not_remaps_outside hs hshrinks hno hfit hold hsome hout hmaps
  · rintro ⟨hfit, hold, hin⟩
    refine ⟨fun y hy => hold y hy.2.2.2, ?_, fun _ herr => (nomatch herr)⟩
    rintro _ hanswer
    cases hanswer
    rw [toHost_toGuest]
    exact remaps_moved hs hshrinks hno hfit hold hin

theorem mremap_keeps_tail : sevens.space.ListInv ∧
      (sevens.mremap 0x100010000 0x4000 0x1000 0).ret = .ok 0x100010000 ∧
      Covers (sevens.mremap 0x100010000 0x4000 0x1000 0).sys.space.committed 0x100011000 ∧
      ¬ sevens.Obeys 0x100010000 0x4000 0x1000 0 (sevens.mremap 0x100010000 0x4000 0x1000 0) := by
  have hkept : Covers (sevens.mremap 0x100010000 0x4000 0x1000 0).sys.space.committed
      0x100011000 := tagAt_isSome.mp (by decide)
  refine ⟨listInv_onePage, rfl, hkept, fun h => ?_⟩
  refine (h.ok 0x100010000 rfl).gone 0x100011000 ⟨0x100011000, by decide, rfl⟩ ?_ hkept
  rw [mem_mappingPages (by decide)]
  unfold guestPages
  decide

theorem mremap_obeys_iff_sevens :
    (sevens.mremap 0x100010000 0x4000 0x8000 1).ret = .ok 0x100014000 ∧
    sevens.Obeys 0x100010000 0x4000 0x8000 1 (sevens.mremap 0x100010000 0x4000 0x8000 1) := by
  have hsafe : sevens.MremapSafe 0x100010000 0x4000 0x8000 1 := by
    refine fun _ _ => ⟨by decide, fun y hy => ?_, fun _ => ⟨by decide, by decide⟩⟩
    obtain ⟨h1, h2⟩ := hy
    exact ⟨⟨0x100010000, 0x4000, 3, 1, true⟩, List.mem_singleton.mpr rfl, h1, h2⟩
  exact ⟨by rfl, (mremap_obeys_iff (x := sevens) listInv_onePage _ _ _ _).mpr hsafe⟩

end Sys

end Fathom
