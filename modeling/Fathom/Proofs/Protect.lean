import Fathom.Proofs.Commit

/-!
# Protect moves no byte

A protection change is rounded out to host pages. Inside the rounded interval every
committed byte keeps its owner and its epoch and gets either the protection asked for or
that and its own; outside, nothing changes at all.
-/

namespace Fathom

open Lib Spanned

namespace GuestAddressSpace

variable {p : Prot} {s : GuestAddressSpace}

def Degenerate (s : GuestAddressSpace) (address size : UInt64) : Prop :=
  size.toNat = 0 ∧ s.page ∣ address.toNat ∧
  ∃ r ∈ s.committed, lo r < address.toNat ∧ address.toNat < hi r

structure Reprotects (p : Prot) (b e sb se : Nat) (L L' : Layout Attr) : Prop where
  free : L'.free = L.free
  outside : ∀ x, ¬ (b ≤ x ∧ x < e) → L'.attr x = L.attr x
  owners : ∀ x, L.attr x = none → L'.attr x = none
  inside : ∀ x t, b ≤ x → x < e → L.attr x = some t →
    ∃ q, L'.attr x = some ⟨q, t.epoch, t.written || p.has kGuestProtWrite⟩ ∧
      ((q = p ∧ sb ≤ x ∧ x < se) ∨ (q = t.protection ||| p ∧ ¬ (sb = b ∧ se = e)))

theorem reprotect_layout (hs : s.ListInv) {b e sb se : UInt64} (hbe : b.toNat < e.toNat) :
    Reprotects p b.toNat e.toNat sb.toNat se.toNat s.layout
      ({ s with committed := reprotect s.committed b e sb se p }).layout := by
  have hw : Wf (reprotect s.committed b e sb se p) := wf_reprotect hs.committed hbe
  have hmem : ∀ x t, b.toNat ≤ x → x < e.toNat → tagAt s.committed x = some t →
      ∃ r ∈ s.committed, Has r x ∧ tag r = t ∧
        tagAt (reprotect s.committed b e sb se p) x = some (tag (protectedPart b e sb se p r)) := by
    intro x t h1 h2 ht
    obtain ⟨r, hr, hrx, rfl⟩ := hs.committed.tagAt_eq_some.mp ht
    refine ⟨r, hr, hrx, rfl, hw.tagAt_eq_some.mpr ?_⟩
    exact (holds_reprotect hs.committed.fits hbe.le).mpr (.inr ⟨r, hr, hrx, ⟨h1, h2⟩, rfl⟩)
  refine ⟨rfl, fun x hx => ?_, fun x hx => ?_, fun x t h1 h2 ht => ?_⟩
  · refine hs.committed.tagAt_congr fun t => ?_
    rw [holds_reprotect hs.committed.fits hbe.le]
    simp [hx]
  · rw [layout_attr, tagAt_eq_none] at hx ⊢
    rw [covers_iff_holds] at hx ⊢
    rintro ⟨t, ht⟩
    rcases (holds_reprotect hs.committed.fits hbe.le).mp ht with
      ⟨h, _⟩ | ⟨r, hr, hrx, _⟩
    · exact hx ⟨t, h⟩
    · exact hx ⟨tag r, r, hr, hrx, rfl⟩
  · obtain ⟨r, hr, hrx, rfl, htag⟩ := hmem x t h1 h2 ht
    have hp := hs.committed.proper r hr
    have hlo := lo_protectedPart b e sb se p r
    have hend : (wordMin (Spanned.stop r) e).toNat = min (hi r) e.toNat := by
      rw [toNat_wordMin, stop_toNat hp.fits]
    unfold Has at hrx
    refine ⟨(protectedPart b e sb se p r).protection, htag, ?_⟩
    have hq : (protectedPart b e sb se p r).protection =
      protectionFor sb se p (wordMax r.begin b) (wordMin (Spanned.stop r) e) r.protection := rfl
    rw [hq]
    unfold protectionFor
    change (wordMax r.begin b).toNat = _ at hlo
    by_cases hin : wordMax r.begin b ≥ sb ∧ wordMin (Spanned.stop r) e ≤ se
    · rw [if_pos hin]
      rw [ge_iff_le, UInt64.le_iff_toNat_le, UInt64.le_iff_toNat_le, hlo] at hin
      exact .inl ⟨rfl, by omega⟩
    · rw [if_neg hin]
      rw [ge_iff_le, UInt64.le_iff_toNat_le, UInt64.le_iff_toNat_le, hlo] at hin
      exact .inr ⟨rfl, by omega⟩

theorem Reprotects.refl {b e sb se : Nat} {L : Layout Attr}
    (h : ∀ x, b ≤ x → x < e → L.attr x = none) : Reprotects p b e sb se L L :=
  ⟨rfl, fun _ _ => rfl, fun _ hx => hx, fun x t h1 h2 ht => by
    rw [h x h1 h2] at ht
    cases ht⟩

theorem Reprotects.eq_retag {b e : Nat} {L L' : Layout Attr} (h : Reprotects p b e b e L L') :
    L' = L.retag b e fun _ t => ⟨p, t.epoch, t.written || p.has kGuestProtWrite⟩ := by
  ext x : 2
  · rw [Layout.retag_attr]
    split
    next hx =>
      cases ht : L.attr x with
      | none => exact h.owners x ht
      | some t =>
        obtain ⟨q, hq, ⟨rfl, _⟩ | ⟨_, hne⟩⟩ := h.inside x t hx.1 hx.2 ht
        · exact hq
        · exact absurd ⟨rfl, rfl⟩ hne
    next hx => exact h.outside x hx
  · rw [h.free, Layout.retag_free]

/-! ## Protect -/

theorem touches_iff (hs : s.ListInv) {b e : UInt64} : (s.committed.any fun range =>
      !(decide (Spanned.stop range ≤ b) || decide (range.begin ≥ e))) = true ↔
      ∃ r ∈ s.committed, Meets b e r := by
  rw [List.any_eq_true]
  refine exists_congr fun r => and_congr_right fun hr => ?_
  have hst := stop_toNat (hs.committed.proper r hr).fits
  simp only [Bool.not_eq_true', Bool.or_eq_false_iff, decide_eq_false_iff_not,
    UInt64.le_iff_toNat_le]
  unfold Meets
  change ¬ _ ∧ ¬ e.toNat ≤ lo r ↔ _
  omega

variable {a n : UInt64}

section

variable (hs : s.ListInv)
include hs

theorem protectLocked_spec (h : Host) (p : Prot) (hfit : a.toNat + n.toNat + s.page ≤ 2 ^ 64)
    (hdeg : ¬ s.Degenerate a n) : (s.protectLocked h a n p).space.ListInv ∧
    (s.protectLocked h a n p).space.toGeometry = s.toGeometry ∧
    Reprotects p (roundDown s.page a.toNat) (roundUp s.page (a.toNat + n.toNat))
      (roundUp s.page a.toNat) (roundDown s.page (a.toNat + n.toNat)) s.layout
      (s.protectLocked h a n p).space.layout := by
  have hpos := s.page_pos
  obtain ⟨hsum, hb, he⟩ := toNat_rounded hfit
  have hsb := s.toNat_alignUp (v := a) (by omega)
  have hse := s.toNat_alignDown (a + n)
  rw [hsum] at hse
  have hb1 := roundDown_le s.page a.toNat
  have he1 := le_roundUp hpos (a.toNat + n.toNat)
  rw [← hb, ← he, ← hsb, ← hse]
  unfold protectLocked
  by_cases htouch : ∃ r ∈ s.committed, Meets (s.alignDown a) (s.alignUp (a + n)) r
  · rw [if_pos ((touches_iff hs).mpr htouch)]
    have hbe : (s.alignDown a).toNat < (s.alignUp (a + n)).toNat := by
      by_contra hcon
      -- The rounded interval is empty, so the request is, on a page boundary.
      have h0 : n.toNat = 0 := by omega
      have hda : a.toNat = (s.alignDown a).toNat := by omega
      obtain ⟨r, hr, hm1, hm2⟩ := htouch
      exact hdeg ⟨h0, by rw [hda, hb]; exact dvd_roundDown _ _, r, hr, by omega, by omega⟩
    have hinv : ({ s with
        committed := reprotect s.committed (s.alignDown a) (s.alignUp (a + n))
          (s.alignUp a) (s.alignDown (a + n)) p }).ListInv := by
      refine ⟨hs.free, hs.freeEdges, wf_reprotect hs.committed hbe, ?_, ?_⟩
      · exact edges_reprotect hs.committed hbe hs.committedEdges
          (Nat.dvd_trans s.guestPage_dvd_page (by rw [hb]; exact dvd_roundDown _ _))
          (Nat.dvd_trans s.guestPage_dvd_page (by rw [he]; exact dvd_roundUp _ _))
      · intro x hx
        exact (reprotect_layout hs hbe).owners x (hs.apart x hx)
    split
    · exact ⟨hinv, rfl, reprotect_layout hs hbe⟩
    · exact ⟨hinv, rfl, reprotect_layout hs hbe⟩
  · rw [if_neg (fun hc => htouch ((touches_iff hs).mp hc))]
    refine ⟨hs, rfl, Reprotects.refl fun x h1 h2 => tagAt_eq_none.mpr ?_⟩
    rintro ⟨r, hr, hrx⟩
    unfold Has at hrx
    exact htouch ⟨r, hr, by unfold Meets; omega⟩

theorem Degenerate.protectLocked_layout {h : Host} (p : Prot) (hdeg : s.Degenerate a n) :
    (s.protectLocked h a n p).space.toGeometry = s.toGeometry ∧
    (s.protectLocked h a n p).space.layout = s.layout := by
  obtain ⟨h0, hdvd, r, hr, hlo, hhi⟩ := hdeg
  have hpos := s.page_pos
  have hn : n = 0 := UInt64.toNat_inj.mp h0
  have hadd : a + n = a := by rw [hn]; exact UInt64.add_zero a
  have hdown : s.alignDown a = a := by
    apply UInt64.toNat_inj.mp
    rw [s.toNat_alignDown, roundDown_of_dvd hdvd]
  have hup : s.alignUp a = a := by
    have hfit := (hs.committed.proper r hr).fits
    apply UInt64.toNat_inj.mp
    rw [s.toNat_alignUp (add_le_of_dvd_of_lt hdvd s.page_dvd_word (by omega)),
      roundUp_of_dvd hpos hdvd]
  have htouch : ∃ r ∈ s.committed, Meets a a r := ⟨r, hr, hhi, hlo⟩
  have hlay : ({ s with committed := reprotect s.committed a a a a p }).layout = s.layout := by
    ext x : 2
    · exact hs.committed.tagAt_congr fun t => holds_reprotect_empty hs.committed.fits
    · rfl
  unfold protectLocked
  rw [hadd, hdown, hup, if_pos ((touches_iff hs).mpr htouch)]
  split
  · exact ⟨rfl, hlay⟩
  · exact ⟨rfl, hlay⟩

theorem protectLocked_reprotects (h : Host) (p : Prot) (hfit : a.toNat + n.toNat + s.page ≤ 2 ^ 64)
    : (s.protectLocked h a n p).space.toGeometry = s.toGeometry ∧
    Reprotects p (roundDown s.page a.toNat) (roundUp s.page (a.toNat + n.toNat))
      (roundUp s.page a.toNat) (roundDown s.page (a.toNat + n.toNat)) s.layout
      (s.protectLocked h a n p).space.layout := by
  by_cases hdeg : s.Degenerate a n
  · obtain ⟨hgeo, hlay⟩ := hdeg.protectLocked_layout hs p
    obtain ⟨h0, hdvd, _⟩ := hdeg
    rw [hlay, h0, Nat.add_zero, roundUp_of_dvd s.page_pos hdvd, roundDown_of_dvd hdvd]
    exact ⟨hgeo, Reprotects.refl fun x h1 h2 => by omega⟩
  · exact (protectLocked_spec hs h p hfit hdeg).2

theorem protectLocked_refused {h : Host} (hfit : a.toNat + n.toNat + s.page ≤ 2 ^ 64)
    (hret : (s.protectLocked h a n p).ret = false) :
    (s.protectLocked h a n p).space = s ∧ ∀ x, roundDown s.page a.toNat ≤ x →
    x < roundUp s.page (a.toNat + n.toNat) → ¬ Covers s.committed x := by
  obtain ⟨-, hb, he⟩ := toNat_rounded hfit
  unfold protectLocked at hret ⊢
  dsimp only at hret ⊢
  split at hret
  · split at hret
    · cases hret
    · cases hret
  next htouch =>
    rw [if_neg htouch]
    refine ⟨rfl, fun x h1 h2 ⟨r, hr, hrx⟩ => htouch ((touches_iff hs).mpr ⟨r, hr, ?_⟩)⟩
    unfold Meets
    unfold Has at hrx
    omega

end

structure ProtectsHost (p : Prot) (b e : Nat) (h h' : Host) : Prop where
  succeeds : h'.Succeeds
  mem : h'.mem = h.mem
  opened : p.has kGuestProtWrite = true → ∀ x, b ≤ x → x < e → h'.prot x = protReadWrite
  frame : ∀ x, p.has kGuestProtWrite = false ∨ ¬ (b ≤ x ∧ x < e) → h'.prot x = h.prot x

theorem protectLocked_host (hs : s.ListInv) {h : Host} (hh : h.Succeeds)
    (p : Prot) (hfit : a.toNat + n.toNat + s.page ≤ 2 ^ 64)
    (htouch : ∃ x, (roundDown s.page a.toNat ≤ x ∧
      x < roundUp s.page (a.toNat + n.toNat)) ∧ Covers s.committed x) :
    (s.protectLocked h a n p).ret = true ∧
      ProtectsHost p (roundDown s.page a.toNat) (roundUp s.page (a.toNat + n.toNat)) h
        (s.protectLocked h a n p).host := by
  obtain ⟨-, hb, he⟩ := toNat_rounded hfit
  rw [← hb, ← he] at htouch ⊢
  obtain ⟨x, hx, r, hr, hrx⟩ := htouch
  have hmeets : Meets (s.alignDown a) (s.alignUp (a + n)) r := by
    unfold Meets
    unfold Has at hrx
    omega
  have hspan : ∀ x, Host.inSpan (s.alignDown a) (s.alignUp (a + n) - s.alignDown a) x =
      true ↔ (s.alignDown a).toNat ≤ x ∧ x < (s.alignUp (a + n)).toNat := by
    intro x
    rw [Host.inSpan_iff, toNat_sub_of_le (by omega)]
    omega
  unfold protectLocked
  rw [if_pos ((touches_iff hs).mpr ⟨r, hr, hmeets⟩)]
  by_cases hw : p.has kGuestProtWrite = true
  · rw [if_pos hw]
    refine ⟨rfl, (hh.mprotect _ _ _).2, Host.mprotect_mem _ _ _ _, fun _ x h1 h2 => ?_,
      fun x hx => ?_⟩
    · rw [hh.mprotect_prot, if_pos ((hspan x).mpr ⟨h1, h2⟩)]
    · rw [hh.mprotect_prot, if_neg]
      rintro hin
      rcases hx with hx | hx
      · rw [hw] at hx
        cases hx
      · exact hx ((hspan x).mp hin)
  · rw [if_neg hw]
    exact ⟨rfl, hh, rfl, fun hw' => absurd hw' hw, fun _ _ => rfl⟩

/-! ## Whole pages -/

/-- Byte `x` is on a host page that lies wholly inside the request. -/
def OnWholePage (s : GuestAddressSpace) (address size : UInt64) (x : Nat) : Prop :=
  address.toNat ≤ roundDown s.page x ∧ roundDown s.page x + s.page ≤ address.toNat + size.toNat

/-- What the request covers of a range, in whole host pages, is inside the pages that lie
wholly in the request. -/
def WhollyInside (s : GuestAddressSpace) (address size : UInt64) (r : GuestRange) : Prop :=
  roundUp s.page address.toNat ≤ max (lo r) (roundDown s.page address.toNat) ∧
  min (hi r) (roundUp s.page (address.toNat + size.toNat)) ≤
    roundDown s.page (address.toNat + size.toNat)

theorem onWholePage_iff {x : Nat} : s.OnWholePage a n x ↔
    roundUp s.page a.toNat ≤ x ∧ x < roundDown s.page (a.toNat + n.toNat) := by
  have hpos := s.page_pos
  have hdvd := dvd_roundDown s.page x
  have hlow := (roundUp_le_iff (n := a.toNat) hpos hdvd).symm.trans
    (le_roundDown_iff hpos (dvd_roundUp _ _))
  have hnext := le_roundDown_iff (n := a.toNat + n.toNat) hpos (Nat.dvd_add hdvd (dvd_refl _))
  have hhigh := roundDown_lt_iff (n := x) hpos (dvd_roundDown s.page (a.toNat + n.toNat))
  have hstep : roundDown s.page x < roundDown s.page (a.toNat + n.toNat) ↔
      roundDown s.page x + s.page ≤ roundDown s.page (a.toNat + n.toNat) := by
    refine ⟨fun hlt => ?_, fun hle => by omega⟩
    obtain ⟨i, hi⟩ := hdvd
    obtain ⟨j, hj⟩ := dvd_roundDown s.page (a.toNat + n.toNat)
    rw [hi, hj] at hlt ⊢
    exact Nat.mul_le_mul_left s.page (Nat.lt_of_mul_lt_mul_left hlt)
  exact and_congr hlow (hnext.symm.trans (hstep.symm.trans hhigh))

theorem protectedPart_protection (hs : s.ListInv) (p : Prot) {r : GuestRange}
    (hr : r ∈ s.committed) (hfit : a.toNat + n.toNat + s.page ≤ 2 ^ 64) :
    (protectedPart (s.alignDown a) (s.alignUp (a + n)) (s.alignUp a) (s.alignDown (a + n)) p
      r).protection = p ↔ s.WhollyInside a n r ∨ r.protection ||| p = p := by
  have hsum : (a + n).toNat = a.toNat + n.toNat := toNat_add_of_lt (by have := s.page_pos; omega)
  have hcond : (wordMax r.begin (s.alignDown a) ≥ s.alignUp a ∧ wordMin (Spanned.stop r)
      (s.alignUp (a + n)) ≤ s.alignDown (a + n)) ↔ s.WhollyInside a n r := by
    rw [ge_iff_le, UInt64.le_iff_toNat_le, UInt64.le_iff_toNat_le, toNat_wordMax,
      toNat_wordMin, stop_toNat (hs.committed.proper r hr).fits, s.toNat_alignDown,
      s.toNat_alignDown, s.toNat_alignUp (by omega), s.toNat_alignUp (by omega), hsum]
    rfl
  change protectionFor _ _ _ _ _ _ = p ↔ _
  unfold protectionFor
  rw [← hcond]
  split
  next hin => exact iff_of_true rfl (.inl hin)
  next hout => exact (or_iff_right hout).symm

theorem holds_protect (hs : s.ListInv) (h : Host) (p : Prot)
    (hfit : a.toNat + n.toNat + s.page ≤ 2 ^ 64) {x : Nat} {t : Attr} (hx : s.OnWholePage a n x) :
    Holds (s.protect h a n p).space.committed x t ↔ ∃ r ∈ s.committed, Has r x ∧
    tag (protectedPart (s.alignDown a) (s.alignUp (a + n)) (s.alignUp a)
      (s.alignDown (a + n)) p r) = t := by
  obtain ⟨-, hb, he⟩ := toNat_rounded hfit
  have hlow := roundDown_le s.page a.toNat
  have hhigh := le_roundUp s.page_pos (a.toNat + n.toNat)
  have hin : (s.alignDown a).toNat ≤ x ∧ x < (s.alignUp (a + n)).toNat := by
    have := onWholePage_iff.mp hx
    have := le_roundUp s.page_pos a.toNat
    have := roundDown_le s.page (a.toNat + n.toNat)
    omega
  have hnotify : (s.protect h a n p).space.committed =
      (s.protectLocked h a n p).space.committed := by
    unfold protect
    dsimp only
    split
    · exact (notify_fields _ _ _).2.2.1
    · rfl
  rw [hnotify]
  unfold protectLocked
  by_cases htouch : ∃ r ∈ s.committed, Meets (s.alignDown a) (s.alignUp (a + n)) r
  · have hre : Holds (reprotect s.committed (s.alignDown a) (s.alignUp (a + n)) (s.alignUp a)
        (s.alignDown (a + n)) p) x t ↔ _ := holds_reprotect hs.committed.fits (by omega)
    simp only [hin, not_true, and_false, false_or, true_and] at hre
    rw [if_pos ((touches_iff hs).mpr htouch)]
    split
    · exact hre
    · exact hre
  · -- Nothing the guest has is in the rounded interval, so the byte is nobody's.
    have hnone : ∀ r ∈ s.committed, ¬ Has r x := fun r hr hrx =>
      htouch ⟨r, hr, by unfold Meets; unfold Has at hrx; omega⟩
    rw [if_neg fun hc => htouch ((touches_iff hs).mp hc)]
    exact iff_of_false (fun ⟨r, hr, hrx, _⟩ => hnone r hr hrx) fun ⟨r, hr, hrx, _⟩ => hnone r hr hrx

/-- Every committed byte on a host page wholly inside the request ends with exactly the
protection asked for, if and only if each range with such a byte lies inside the whole
pages as far as the request rounded out reaches, or allowed nothing more before. -/
theorem protect_exact_iff (hs : s.ListInv) (h : Host) (p : Prot)
    (hfit : a.toNat + n.toNat + s.page ≤ 2 ^ 64) :
    (∀ x t, s.OnWholePage a n x → Holds (s.protect h a n p).space.committed x t →
        t.protection = p) ↔ ∀ r ∈ s.committed, (∃ x, Has r x ∧ s.OnWholePage a n x) →
        s.WhollyInside a n r ∨ r.protection ||| p = p := by
  constructor
  · rintro hall r hr ⟨x, hrx, hx⟩
    rw [← protectedPart_protection hs p hr hfit]
    exact hall x _ hx ((holds_protect hs h p hfit hx).mpr ⟨r, hr, hrx, rfl⟩)
  · intro hranges x t hx ht
    obtain ⟨r, hr, hrx, rfl⟩ := (holds_protect hs h p hfit hx).mp ht
    exact (protectedPart_protection hs p hr hfit).mpr (hranges r hr ⟨x, hrx, hx⟩)

/-- Three pages that can be read and written, as one range. -/
def threePages : Out UInt64 := (new Geometry.oneMegabyte).allocate Host.fresh 0xC000 0 3

theorem listInv_threePages : threePages.space.ListInv :=
  (allocate_spec (listInv_new _) _ 3 ⟨by decide, by decide, by decide⟩).1

theorem protect_exact_threePages :
    threePages.space.ListInv ∧ ∀ x t, threePages.space.OnWholePage 0x100014000 0x4000 x →
    Holds (threePages.space.protect threePages.host 0x100014000 0x4000 1).space.committed x t →
    t.protection = 1 := by
  refine ⟨listInv_threePages, (protect_exact_iff listInv_threePages threePages.host 1
    (by decide)).mpr fun r hr _ => .inl ?_⟩
  have hone : threePages.space.committed = [⟨0x100010000, 0xC000, 3, 1, true⟩] := by decide
  rw [hone, List.mem_singleton] at hr
  subst hr
  exact ⟨by decide, by decide⟩

theorem protect_keeps_write :
    threePages.space.ListInv ∧ threePages.space.OnWholePage 0x100011000 0xB000 0x100014000 ∧
    Holds (threePages.space.protect threePages.host 0x100011000 0xB000 1).space.committed
      0x100014000 ⟨3, 1, true⟩ := by
  refine ⟨listInv_threePages, ⟨by decide, by decide⟩, ?_⟩
  exact ⟨_, List.mem_singleton.mpr rfl, ⟨by decide, by decide⟩, rfl⟩

/-! ## Release is exact -/

variable {s : GuestAddressSpace}

theorem freeGaps_spec {gaps : List (UInt64 × UInt64)} :
    ∀ {free : List Extent}, ({ s with free }).ListInv → (∀ g ∈ gaps, s.Vacant g) →
      ({ s with free := s.freeGaps gaps free }).ListInv ∧
        ∀ x, Covers (s.freeGaps gaps free) x ↔ Covers free x ∨ x ∈ s.gapPages gaps := by
  induction gaps with
  | nil =>
    intro free hs _
    refine ⟨hs, fun x => ?_⟩
    simp [freeGaps, gapPages]
  | cons g rest ih =>
    intro free hs hv
    have hg := hv g (by simp)
    have hlow := hg.toNat_low
    have hhigh := s.toNat_alignDown g.2
    have hpages : ∀ x, x ∈ s.gapPages (g :: rest) ↔
        (roundUp s.page g.1.toNat ≤ x ∧ x < roundDown s.page g.2.toNat) ∨ x ∈ s.gapPages rest := by
      simp [gapPages]
    have hcons : s.freeGaps (g :: rest) free = s.freeGaps rest (if s.alignDown g.2 > s.alignUp g.1
          then returnFreeExtent free (s.alignUp g.1) (s.alignDown g.2 - s.alignUp g.1)
          else free) := rfl
    rw [hcons]
    by_cases hlt : s.alignDown g.2 > s.alignUp g.1
    · rw [if_pos hlt]
      rw [gt_iff_lt, UInt64.lt_iff_toNat_lt] at hlt
      have hsub := toNat_sub_of_le hlt.le
      have hsum : (s.alignUp g.1).toNat + (s.alignDown g.2 - s.alignUp g.1).toNat =
          roundDown s.page g.2.toNat := by omega
      have h1 := le_roundUp s.page_pos g.1.toNat
      have h2 := roundDown_le s.page g.2.toNat
      have h3 := hg.low
      have h4 := hg.high
      have h5 := s.limit_add_page
      have hpp := s.page_pos
      obtain ⟨hinv, hcov⟩ := hs.giveBack (a := s.alignUp g.1)
        (n := s.alignDown g.2 - s.alignUp g.1) (by omega)
        ⟨by rw [hlow]; exact dvd_roundUp _ _, by dsimp only; omega,
          by dsimp only [Geometry.limit] at *; omega⟩
        ⟨by rw [hsum]; exact dvd_roundDown _ _, by dsimp only; omega,
          by dsimp only [Geometry.limit] at *; omega⟩
        (fun x hx hx' => hg.none x (by omega) (by omega))
      obtain ⟨hinv', hcov'⟩ := ih hinv fun g' hg' => hv g' (by simp [hg'])
      refine ⟨hinv', fun x => ?_⟩
      rw [hcov', hcov, hpages, hsum, hlow]
      tauto
    · rw [if_neg hlt]
      rw [gt_iff_lt, UInt64.lt_iff_toNat_lt] at hlt
      obtain ⟨hinv', hcov'⟩ := ih hs fun g' hg' => hv g' (by simp [hg'])
      refine ⟨hinv', fun x => ?_⟩
      rw [hcov', hpages]
      constructor
      · rintro (h | h)
        · exact .inl h
        · exact .inr (.inr h)
      · rintro (h | h | h)
        · exact .inl h
        · omega
        · exact .inr h

/-! ## The committed list after a release -/

theorem ListInv.dropCommitted (hs : s.ListInv) {b e : UInt64} (hbe : b.toNat < e.toNat)
    (hb : 4096 ∣ b.toNat) (he : 4096 ∣ e.toNat) :
    let committed := coalesce (s.committed.flatMap (cut b e fun _ => []))
    ({ s with committed }).ListInv ∧
      ∀ x, tagAt committed x = if b.toNat ≤ x ∧ x < e.toNat then none else tagAt s.committed x := by
  have hcut : Wf (s.committed.flatMap (cut b e fun _ => [])) :=
    hs.committed.flatMap_cut hbe.le fun r _ _ => fills_nil b e r
  have htag : ∀ x, tagAt (coalesce (s.committed.flatMap (cut b e fun _ => []))) x =
      if b.toNat ≤ x ∧ x < e.toNat then none else tagAt s.committed x := by
    intro x
    refine tagAt_eq fun t => ?_
    unfold coalesce
    rw [hcut.fits.holds_join, hs.committed.fits.holds_flatMap_cut]
    split <;> rename_i h <;> simp [h, hs.committed.tagAt_eq_some]
  refine ⟨⟨hs.free, hs.freeEdges, hcut.join, ?_, ?_⟩, htag⟩
  · exact hcut.edges_join (hs.committed.edges_flatMap_cut hs.committedEdges
      (fun _ _ _ _ => hb) (fun _ _ _ _ => he) fun _ _ _ _ h => absurd h (by simp))
  · intro x hx
    rw [layout_attr, htag]
    have := hs.apart x hx
    split
    · rfl
    · exact this

def dropSpan (s : GuestAddressSpace) (b e : UInt64) : GuestAddressSpace :=
  let s := { s with committed := coalesce (s.committed.flatMap (cut b e fun _ => [])) }
  { s with
    free := s.freeGaps (uncommittedIn s.committed (s.alignDown b) (s.alignUp e)) s.free }

theorem ListInv.dropSpan (hs : s.ListInv) {b e : UInt64} (hbe : b.toNat < e.toNat)
    (hb : 4096 ∣ b.toNat) (he : 4096 ∣ e.toNat) (hlo : s.base.toNat ≤ b.toNat)
    (hhi : e.toNat ≤ s.limit) : (s.dropSpan b e).ListInv ∧
    (s.dropSpan b e).layout = s.layout.drop s.page b.toNat e.toNat := by
  obtain ⟨hs1, htag⟩ := hs.dropCommitted hbe hb he
  have hroom := s.limit_add_page
  have hlow := s.toNat_alignDown b
  have hhigh := s.toNat_alignUp (v := e) (by omega)
  unfold GuestAddressSpace.dropSpan
  generalize coalesce (s.committed.flatMap (cut b e fun _ => [])) = committed at *
  have hgaps := gaps_uncommittedIn hs1.committed (s.alignDown b) (s.alignUp e)
  have hbase := (le_roundDown_iff s.page_pos s.base_aligned).mpr hlo
  have hlimit := (roundUp_le_iff s.page_pos s.page_dvd_limit).mpr hhi
  obtain ⟨hs2, hcov⟩ := freeGaps_spec hs1 fun g hg => by
    have hgap := hgaps.isGap g hg
    exact ⟨Nat.le_trans (by rw [hlow]; exact hbase) hgap.low,
      hgap.high.trans (by rw [hhigh]; exact hlimit), hgap.pos, hgap.free⟩
  refine ⟨hs2, ?_⟩
  ext x : 2
  · exact htag x
  · refine (hcov x).trans (or_congr Iff.rfl ?_)
    have hnone : ∀ y, ¬ Covers committed y ↔
        y ∈ Set.Ico b.toNat e.toNat ∨ tagAt s.committed y = none := by
      intro y
      rw [← tagAt_eq_none, htag]
      split <;> rename_i h <;> simp [h]
    rw [mem_gapPages hs1.committed hgaps, hlow, hhigh]
    change _ ↔ x ∈ touched s.page b.toNat e.toNat ∧ _
    rw [mem_touched_iff s.page_pos hbe]
    constructor
    · intro hpage
      exact ⟨(hpage x rfl).1, fun y hy => (hnone y).mp (hpage y hy).2⟩
    · rintro ⟨hx, hpage⟩ y hy
      exact ⟨page_subset_span s.page_pos (dvd_roundDown _ _) (dvd_roundUp _ _) hx hy,
        (hnone y).mpr (hpage y hy)⟩

/-! ## Release -/

variable {a n : UInt64} {h : Host}

theorem release_refused (hfit : a.toNat + n.toNat + 4096 ≤ 2 ^ 64)
    (href : n = 0 ∨ a.toNat < s.base.toNat ∨ s.limit < a.toNat + n.toNat) :
    s.release h a n = ⟨false, h, s⟩ := by
  have hbase := Nat.dvd_trans s.guestPage_dvd_page s.base_aligned
  have hlimit := Nat.dvd_trans s.guestPage_dvd_page s.page_dvd_limit
  have hsum : (a + n).toNat = a.toNat + n.toNat := toNat_add_of_lt (by omega)
  unfold release
  by_cases h0 : n = 0
  · rw [if_pos h0]
  · rw [if_neg h0]
    rw [if_pos]
    rw [UInt64.lt_iff_toNat_lt, gt_iff_lt, UInt64.lt_iff_toNat_lt, toNat_guestDown,
      toNat_guestUp (by omega), s.toNat_limit, hsum, roundDown_lt_iff (by omega) hbase,
      lt_roundUp_iff (by omega) hlimit]
    exact href.resolve_left h0

theorem guestSpan (hpos : 0 < n.toNat) (hlo : s.base.toNat ≤ a.toNat)
    (hhi : a.toNat + n.toNat ≤ s.limit) :
    let b := maskDown kGuestPage a
    let e := maskUp kGuestPage (a + n)
    (b.toNat = roundDown 4096 a.toNat ∧ e.toNat = roundUp 4096 (a.toNat + n.toNat)) ∧
      s.base.toNat ≤ b.toNat ∧ b.toNat < e.toNat ∧ e.toNat ≤ s.limit := by
  have hbase := Nat.dvd_trans s.guestPage_dvd_page s.base_aligned
  have hlimit := Nat.dvd_trans s.guestPage_dvd_page s.page_dvd_limit
  have hroom := s.limit_add_page
  have hpage := Nat.le_of_dvd s.page_pos s.guestPage_dvd_page
  have hsum : (a + n).toNat = a.toNat + n.toNat := toNat_add_of_lt (by omega)
  have hb := toNat_guestDown a
  have he := toNat_guestUp (v := a + n) (by omega)
  rw [hsum] at he
  have hb1 := roundDown_le 4096 a.toNat
  have he1 := le_roundUp (show 0 < 4096 by omega) (a.toNat + n.toNat)
  have hb2 := (le_roundDown_iff (by omega) hbase).mpr hlo
  have he2 := (roundUp_le_iff (by omega) hlimit).mpr hhi
  exact ⟨⟨hb, he⟩, by omega⟩

theorem dropGaps_eq (s : GuestAddressSpace) (gaps : List (UInt64 × UInt64)) (h : Host) :
    s.dropGaps gaps h = gaps.foldl s.fillGap h := by
  unfold dropGaps
  congr 1
  funext h gap
  unfold fillGap
  by_cases hle : s.alignDown gap.2 ≤ s.alignUp gap.1
  · rw [if_pos hle, if_neg (by rw [UInt64.not_lt]; exact hle)]
  · rw [if_neg hle, if_pos (by rw [gt_iff_lt, ← UInt64.not_le]; exact hle)]

section

variable (hs : s.ListInv) (h : Host) (hpos : 0 < n.toNat) (hlo : s.base.toNat ≤ a.toNat)
  (hhi : a.toNat + n.toNat ≤ s.limit)
include hs hpos hlo hhi

theorem release_spec : (s.release h a n).ret = true ∧ (s.release h a n).space.ListInv ∧
      (s.release h a n).space.toGeometry = s.toGeometry ∧
      (s.release h a n).space.layout = s.layout.drop s.page (roundDown 4096 a.toNat)
          (roundUp 4096 (a.toNat + n.toNat)) := by
  obtain ⟨⟨hb, he⟩, hlow, hlt, hhigh⟩ := guestSpan hpos hlo hhi
  unfold release
  rw [if_neg (ne_zero_of_toNat_pos hpos)]
  dsimp only
  rw [if_neg (by
    rw [UInt64.lt_iff_toNat_lt, gt_iff_lt, UInt64.lt_iff_toNat_lt, s.toNat_limit]
    omega)]
  obtain ⟨hinv, hlay⟩ := hs.dropSpan hlt (by rw [hb]; exact dvd_roundDown _ _)
    (by rw [he]; exact dvd_roundUp _ _) hlow hhigh
  rw [hb, he] at hlay
  refine ⟨rfl, ?_, ?_, ?_⟩
  · split
    · exact hinv.notify _ _
    · exact hinv
  · split
    · exact (notify_fields _ _ _).1
    · rfl
  · split
    · rw [notify_layout]
      exact hlay
    · exact hlay

/-! ## The host's side -/

theorem release_fills : ∃ (committed : List GuestRange) (b e : UInt64),
      (s.base.toNat ≤ b.toNat ∧ e.toNat ≤ s.limit) ∧ Wf committed ∧
      (s.release h a n).space.committed = committed ∧
      (∀ g ∈ uncommittedIn committed b e, ({ s with committed } : GuestAddressSpace).Vacant g) ∧
      (s.release h a n).host = (uncommittedIn committed b e).foldl
          ({ s with committed } : GuestAddressSpace).fillGap h := by
  have hroom := s.limit_add_page
  obtain ⟨⟨hb, he⟩, hin⟩ := guestSpan hpos hlo hhi
  unfold release
  rw [if_neg (ne_zero_of_toNat_pos hpos)]
  dsimp only
  rw [if_neg (by
    rw [UInt64.lt_iff_toNat_lt, gt_iff_lt, UInt64.lt_iff_toNat_lt, s.toNat_limit]
    omega)]
  generalize maskDown kGuestPage a = b at *
  generalize maskUp kGuestPage (a + n) = e at *
  obtain ⟨hs1, _⟩ := hs.dropCommitted (b := b) (e := e) (by omega)
    (by rw [hb]; exact dvd_roundDown _ _) (by rw [he]; exact dvd_roundUp _ _)
  have hlow := s.toNat_alignDown b
  have hhigh := s.toNat_alignUp (v := e) (by omega)
  have h5 := (le_roundDown_iff (n := b.toNat) s.page_pos s.base_aligned).mpr (by omega)
  have h6 := (roundUp_le_iff (n := e.toNat) s.page_pos s.page_dvd_limit).mpr (by omega)
  generalize coalesce (s.committed.flatMap (cut b e fun _ => [])) = committed at *
  have hgaps := gaps_uncommittedIn hs1.committed (s.alignDown b) (s.alignUp e)
  refine ⟨committed, s.alignDown b, s.alignUp e, ⟨by omega, by omega⟩, hs1.committed, ?_,
    fun g hg => ?_, dropGaps_eq _ _ _⟩
  · split
    · exact (notify_fields _ _ _).2.2.1
    · rfl
  · have hgap := hgaps.isGap g hg
    exact ⟨Nat.le_trans (by rw [hlow]; exact h5) hgap.low,
      hgap.high.trans (by rw [hhigh]; exact h6), hgap.pos, hgap.free⟩

theorem release_host (hh : h.Succeeds) : (s.release h a n).host.Succeeds ∧
      ∀ x, ((s.release h a n).host.prot x = h.prot x ∧ (s.release h a n).host.mem x = h.mem x) ∨
        ((s.base.toNat ≤ x ∧ x < s.limit) ∧
          ∀ y ∈ pageOf s.page x, (s.release h a n).space.layout.attr y = none) := by
  obtain ⟨committed, b, e, hwin, hwf, hcom, hvac, hhost⟩ := release_fills hs h hpos hlo hhi
  obtain ⟨hsucc, _, hprot⟩ := foldl_fillGap_spec hh hvac
  rw [← hhost] at hsucc hprot
  refine ⟨hsucc, fun x => ?_⟩
  by_cases hx : x ∈ ({ s with committed }).gapPages (uncommittedIn committed b e)
  · have hpages := (mem_gapPages hwf (gaps_uncommittedIn hwf b e)).mp hx
    refine .inr ⟨?_, fun y hy => ?_⟩
    · have := (hpages x rfl).1
      omega
    · rw [layout_attr, hcom]
      exact tagAt_eq_none.mpr (hpages y hy).2
  · exact .inl (hprot x hx).symm

theorem release_kept {x : Nat}
    (hx : Covers (s.release h a n).space.committed x ∨ x < s.base.toNat ∨ s.limit ≤ x) :
    (s.release h a n).host.mem x = h.mem x := by
  obtain ⟨_, b, e, _, _, hcom, hvac, hhost⟩ := release_fills hs h hpos hlo hhi
  rw [hhost]
  rw [hcom] at hx
  exact foldl_fillGap_elsewhere hvac (fun g hg => (hvac g hg).not_offLimits hx) h

end

theorem release_cases (hfit : a.toNat + n.toNat + 4096 ≤ 2 ^ 64) : s.release h a n = ⟨false, h, s⟩ ∨
      (0 < n.toNat ∧ s.base.toNat ≤ a.toNat ∧ a.toNat + n.toNat ≤ s.limit) := by
  by_cases href : n = 0 ∨ a.toNat < s.base.toNat ∨ s.limit < a.toNat + n.toNat
  · exact .inl (release_refused hfit href)
  · rw [not_or, not_or, Nat.not_lt, Nat.not_lt] at href
    obtain ⟨hne, hlo, hhi⟩ := href
    exact .inr ⟨toNat_pos hne, hlo, hhi⟩

theorem release_inv (hs : s.ListInv) (h : Host) (hfit : a.toNat + n.toNat + 4096 ≤ 2 ^ 64) :
    (s.release h a n).space.ListInv ∧ (s.release h a n).space.toGeometry = s.toGeometry := by
  rcases release_cases hfit with heq | ⟨hpos, hlo, hhi⟩
  · rw [heq]
    exact ⟨hs, rfl⟩
  · obtain ⟨_, hinv, hgeo, _⟩ := release_spec hs h hpos hlo hhi
    exact ⟨hinv, hgeo⟩

theorem release_succeeds (hs : s.ListInv) (hh : h.Succeeds)
    (hfit : a.toNat + n.toNat + 4096 ≤ 2 ^ 64) : (s.release h a n).host.Succeeds := by
  rcases release_cases hfit with heq | ⟨hpos, hlo, hhi⟩
  · rw [heq]
    exact hh
  · exact (release_host hs h hpos hlo hhi hh).1

/-- What an exact release of `[b, e)` leaves: those bytes and no others lose
their owner, every other byte keeps its attributes, and the pages that became
free are the touched ones nobody is left on. -/
structure Released (s s' : GuestAddressSpace) (b e : Nat) : Prop where
  committed : ∀ x, Covers s'.committed x ↔ Covers s.committed x ∧ ¬ (b ≤ x ∧ x < e)
  kept : ∀ x, ¬ (b ≤ x ∧ x < e) → tagAt s'.committed x = tagAt s.committed x
  free : ∀ x, Covers s'.free x ↔ Covers s.free x ∨
    (x ∈ touched s.page b e ∧ ∀ y ∈ pageOf s.page x, ¬ Covers s'.committed y)

theorem released_of_layout {s' : GuestAddressSpace} {b e : Nat}
    (hlay : s'.layout = s.layout.drop s.page b e) : s.Released s' b e := by
  have hattr : ∀ x, tagAt s'.committed x = if b ≤ x ∧ x < e then none else tagAt s.committed x :=
    fun x => congrFun (congrArg Layout.attr hlay) x
  have hcov : ∀ x, ¬ Covers s'.committed x ↔ x ∈ Set.Ico b e ∨ tagAt s.committed x = none := by
    intro x
    rw [← tagAt_eq_none, hattr]
    split <;> rename_i h <;> simp [h]
  refine ⟨fun x => ?_, fun x hx => ?_, fun x => ?_⟩
  · have h := hcov x
    rw [tagAt_eq_none] at h
    tauto
  · rw [hattr, if_neg hx]
  · refine (Set.ext_iff.mp (congrArg Layout.free hlay) x).trans (or_congr Iff.rfl ?_)
    refine and_congr Iff.rfl (forall_congr' fun y => forall_congr' fun _ => ?_)
    exact (hcov y).symm

/-- `Release` of an in-arena range is exact when the range is not empty, and
refused without effect when it is. -/
theorem release_exact (hs : s.ListInv) (h : Host) (a n : UInt64)
    (hlo : s.base.toNat ≤ a.toNat) (hhi : a.toNat + n.toNat ≤ s.limit) :
    (0 < n.toNat → s.Released (s.release h a n).space (roundDown 4096 a.toNat)
      (roundUp 4096 (a.toNat + n.toNat))) ∧ (n.toNat = 0 → s.release h a n = ⟨false, h, s⟩) := by
  constructor
  · intro hpos
    exact released_of_layout (release_spec hs h hpos hlo hhi).2.2.2
  · intro h0
    have hroom := s.limit_add_page
    have hpage := Nat.le_of_dvd s.page_pos s.guestPage_dvd_page
    exact release_refused (by omega) (.inl (UInt64.toNat_inj.mp h0))

theorem release_empty_keeps :
    let s := onePage.space
    let a : UInt64 := 0x100010001
    s.ListInv ∧ s.base.toNat ≤ a.toNat ∧ a.toNat + 0 ≤ s.limit ∧
      ¬ s.Released (s.release onePage.host a 0).space (roundDown 4096 a.toNat)
        (roundUp 4096 (a.toNat + 0)) := by
  refine ⟨listInv_onePage, by decide, by decide, fun h => ?_⟩
  have hown : Covers (onePage.space.release onePage.host 0x100010001 0).space.committed
      0x100010000 := tagAt_isSome.mp (by decide)
  exact ((h.committed 0x100010000).mp hown).2 (by decide)

theorem release_exact_onePage :
    let s := onePage.space
    s.ListInv ∧ s.Released (s.release onePage.host 0x100011001 5).space
      (roundDown 4096 0x100011001) (roundUp 4096 0x100011006) :=
  ⟨listInv_onePage, (release_exact listInv_onePage onePage.host 0x100011001 5
    (by decide) (by decide)).1 (by decide)⟩

end GuestAddressSpace

end Fathom
