import Fathom.Proofs.FreeList
import Fathom.Spec.Layout

/-!
# The arena's invariant, and the layout it stands for

`ListInv` is what the two lists of an arena always are: the free list in
normal form on host pages of the arena, the committed list sorted and disjoint
on guest pages, and no byte in both. `layout` forgets the lists and keeps what
they mean.
-/

namespace Fathom

open Lib Spanned

/-! ## Rounding, at an arena's page size -/

namespace Geometry

variable (g : Geometry)

def page : Nat := g.pageSize.toNat

def limit : Nat := g.base.toNat + g.size.toNat

theorem page_pos : 0 < g.page := by
  obtain ⟨k, _, _, h⟩ := g.page_pow
  unfold page
  rw [h]
  exact Nat.two_pow_pos k

theorem guestPage_dvd_page : 4096 ∣ g.page := by
  obtain ⟨k, h12, _, h⟩ := g.page_pow
  unfold page
  rw [h]
  exact Nat.pow_dvd_pow 2 h12

theorem page_dvd_word : g.page ∣ 2 ^ 64 := by
  obtain ⟨k, _, h16, h⟩ := g.page_pow
  unfold page
  rw [h]
  exact Nat.pow_dvd_pow 2 (by omega)

theorem page_dvd_limit : g.page ∣ g.limit := Nat.dvd_add g.base_aligned g.size_aligned

theorem limit_add_page : g.limit + g.page ≤ 2 ^ 64 :=
  add_le_of_dvd_of_lt g.page_dvd_limit g.page_dvd_word g.fits

theorem limit_lt : g.limit < 2 ^ 64 := g.fits

theorem toNat_limit : (g.base + g.size).toNat = g.limit := toNat_add_of_lt g.fits

/-- One megabyte at 4GB, in 16KB pages: an arena to run things on. -/
def oneMegabyte : Geometry where
  base := 0x100000000
  size := 0x100000
  pageSize := 0x4000
  page_pow := ⟨14, by decide, by decide, by decide⟩
  base_aligned := by decide
  size_aligned := by decide
  base_pos := by decide
  size_pos := by decide
  fits := by decide

def nextMegabyte : Geometry :=
  { oneMegabyte with
    base := 0x200000000
    base_aligned := by decide
    base_pos := by decide
    fits := by decide }

end Geometry

theorem toNat_guestDown (v : UInt64) : (maskDown kGuestPage v).toNat = roundDown 4096 v.toNat :=
  toNat_maskDown (k := 12) rfl v

theorem toNat_guestUp {v : UInt64} (h : v.toNat + 4096 ≤ 2 ^ 64) :
    (maskUp kGuestPage v).toNat = roundUp 4096 v.toNat :=
  toNat_maskUp (k := 12) rfl h

namespace GuestAddressSpace

variable {a n : UInt64} {s : GuestAddressSpace}

theorem toNat_alignDown (s : GuestAddressSpace) (v : UInt64) :
    (s.alignDown v).toNat = roundDown s.page v.toNat := by
  obtain ⟨k, _, _, h⟩ := s.page_pow
  exact toNat_maskDown h v

theorem toNat_alignUp {v : UInt64} (h : v.toNat + s.page ≤ 2 ^ 64) :
    (s.alignUp v).toNat = roundUp s.page v.toNat := by
  obtain ⟨k, _, _, hk⟩ := s.page_pow
  exact toNat_maskUp hk h

/-- A request, and what it is rounded out to. -/
theorem toNat_rounded (h : a.toNat + n.toNat + s.page ≤ 2 ^ 64) :
    (a + n).toNat = a.toNat + n.toNat ∧ (s.alignDown a).toNat = roundDown s.page a.toNat ∧
    (s.alignUp (a + n)).toNat = roundUp s.page (a.toNat + n.toNat) := by
  have hpos := s.page_pos
  have hsum : (a + n).toNat = a.toNat + n.toNat := toNat_add_of_lt (by omega)
  have he := s.toNat_alignUp (v := a + n) (by omega)
  rw [hsum] at he
  exact ⟨hsum, s.toNat_alignDown a, he⟩

/-! ## The invariant -/

@[simps] def layout (s : GuestAddressSpace) : Layout Attr where
  attr := tagAt s.committed
  free := {x | Covers s.free x}

def FreeEnd (s : GuestAddressSpace) (x : Nat) : Prop := s.page ∣ x ∧ s.base.toNat ≤ x ∧ x ≤ s.limit

/-- Both lists are sorted, with their ends on pages, and no byte is on both. -/
structure ListInv (s : GuestAddressSpace) : Prop where
  free : Normal s.free
  freeEdges : Edges s.FreeEnd s.free
  committed : Wf s.committed
  committedEdges : Edges (4096 ∣ ·) s.committed
  apart : s.layout.Apart

theorem ListInv.not_covers (hs : s.ListInv) {x : Nat} (h : Covers s.free x) :
    ¬ Covers s.committed x :=
  tagAt_eq_none.mp (hs.apart x h)

theorem ListInv.free_mem (hs : s.ListInv) {x : Nat} (h : Covers s.free x) :
    s.base.toNat ≤ x ∧ x < s.limit := by
  obtain ⟨r, hr, hx⟩ := h
  obtain ⟨⟨_, h1, _⟩, _, _, h2⟩ := hs.freeEdges r hr
  unfold Has at hx
  omega

section

variable (g : Geometry)

theorem lowestUsable_dvd : g.page ∣ 65536 := by
  obtain ⟨k, _, h16, h⟩ := g.page_pow
  unfold Geometry.page
  rw [h]
  exact Nat.pow_dvd_pow 2 h16

theorem free_new : (g.size.toNat ≤ 65536 ∧ (new g).free = []) ∨ ∃ f : Extent, (new g).free = [f] ∧
      65536 < g.size.toNat ∧ lo f = g.base.toNat + 65536 ∧ hi f = g.limit := by
  have hfits := g.fits
  have hfree : (new g).free = if g.size > kLowestUsable
      then [⟨g.base + kLowestUsable, g.size - kLowestUsable⟩] else [] := rfl
  rw [hfree]
  split
  next hlt =>
    rw [gt_iff_lt, UInt64.lt_iff_toNat_lt] at hlt
    have hb := toNat_add_of_lt (a := g.base) (b := kLowestUsable) (by omega)
    have hn := toNat_sub_of_le (a := g.size) (b := kLowestUsable) (by omega)
    refine .inr ⟨_, rfl, hlt, hb, ?_⟩
    change (g.base + kLowestUsable).toNat + (g.size - kLowestUsable).toNat =
      g.base.toNat + g.size.toNat
    omega
  next hlt => exact .inl ⟨Nat.le_of_not_lt hlt, rfl⟩

theorem listInv_new : (new g).ListInv := by
  have hfits := g.fits
  have hlim : g.limit = g.base.toNat + g.size.toNat := rfl
  refine ⟨?_, ?_, wf_nil, fun _ h => absurd h (by simp [new]), fun x _ => rfl⟩
  all_goals
    rcases free_new g with ⟨-, hfree⟩ | ⟨f, hfree, hlt, hlo, hhi⟩
    all_goals rw [hfree]
  · exact normal_nil
  · exact normal_cons.mpr ⟨⟨by omega, by omega⟩, by simp, normal_nil⟩
  · exact fun _ h => absurd h (by simp)
  · intro r hr
    rw [List.mem_singleton.mp hr, hlo, hhi]
    exact ⟨⟨Nat.dvd_add g.base_aligned (lowestUsable_dvd g), Nat.le_add_right _ _,
        show _ ≤ g.limit by omega⟩,
      ⟨g.page_dvd_limit, show g.base.toNat ≤ _ by omega, le_rfl⟩⟩

theorem covers_new (x : Nat) : Covers (new g).free x ↔ g.base.toNat + 65536 ≤ x ∧ x < g.limit := by
  have hlim : g.limit = g.base.toNat + g.size.toNat := rfl
  rcases free_new g with ⟨hsmall, hfree⟩ | ⟨f, hfree, -, hlo, hhi⟩
  · simp only [hfree, Covers, List.not_mem_nil, false_and, exists_false, false_iff]
    omega
  · simp [hfree, Covers, Has, hlo, hhi]

end

/-! ## The moves -/

theorem ListInv.withhold (hs : s.ListInv) {b e : UInt64} (hbe : b.toNat < e.toNat)
    (hb : s.page ∣ b.toNat ∨ ∃ x, x + 1 = b.toNat ∧ Covers s.committed x)
    (he : s.page ∣ e.toNat ∨ Covers s.committed e.toNat) :
    ({ s with free := takeFreeSpan s.free b e }).ListInv ∧
      ({ s with free := takeFreeSpan s.free b e }).layout = s.layout.withhold b.toNat e.toNat := by
  have hlay : ({ s with free := takeFreeSpan s.free b e }).layout =
      s.layout.withhold b.toNat e.toNat := by
    ext x
    · rfl
    · exact covers_takeFreeSpan hs.free
  refine ⟨⟨normal_takeFreeSpan hs.free hbe, ?_, hs.committed, hs.committedEdges, ?_⟩, hlay⟩
  · refine hs.free.wf.edges_flatMap_cut hs.freeEdges ?_ ?_ (fun _ _ _ _ h => absurd h (by simp))
    · intro r hr hm hlt
      obtain ⟨⟨_, h1, _⟩, _, _, h2⟩ := hs.freeEdges r hr
      have hm1 := hm.1
      refine ⟨hb.resolve_right ?_, by omega, by omega⟩
      rintro ⟨x, hx, hc⟩
      exact hs.not_covers ⟨r, hr, by unfold Has; omega⟩ hc
    · intro r hr hm hlt
      obtain ⟨⟨_, h1, _⟩, _, _, h2⟩ := hs.freeEdges r hr
      have hm2 := hm.2
      refine ⟨he.resolve_right fun hc => ?_, by omega, by omega⟩
      exact hs.not_covers ⟨r, hr, by unfold Has; omega⟩ hc
  · rw [hlay]
    exact hs.apart.withhold _ _

def newAttr (s : GuestAddressSpace) (protection : Prot) : Attr :=
  ⟨protection, s.nextEpoch, protection.has kGuestProtWrite⟩

theorem proper_newRange (s : GuestAddressSpace) (p : Prot) (hpos : 0 < n.toNat)
    (hfit : a.toNat + n.toNat < 2 ^ 64) : Proper (s.newRange a n p) :=
  ⟨by change a.toNat < a.toNat + n.toNat; omega, hfit⟩

theorem ListInv.record (hs : s.ListInv) (p : Prot) (hpos : 0 < n.toNat)
    (hfit : a.toNat + n.toNat < 2 ^ 64) (ha : 4096 ∣ a.toNat) (hn : 4096 ∣ n.toNat)
    (hfree : ∀ x, a.toNat ≤ x → x < a.toNat + n.toNat → ¬ Covers s.free x) :
    (s.recordCommitted a n p).ListInv ∧ (s.recordCommitted a n p).layout =
        s.layout.place a.toNat (a.toNat + n.toNat) (s.newAttr p) := by
  have hp := s.proper_newRange p hpos hfit
  have hgeo := s.recordCommitted_geometry a n p
  have hlay : (s.recordCommitted a n p).layout =
      s.layout.place a.toNat (a.toNat + n.toNat) (s.newAttr p) := by
    ext x : 2
    · rw [layout_attr, recordCommitted_committed, hs.committed.tagAt_overwrite hp]
      rfl
    · change Covers (s.recordCommitted a n p).free x ↔
        Covers s.free x ∧ x ∉ Set.Ico a.toNat (a.toNat + n.toNat)
      rw [recordCommitted_free]
      exact ⟨fun h => ⟨h, fun hx => hfree x hx.1 hx.2 h⟩, fun h => h.1⟩
  refine ⟨⟨?_, ?_, ?_, ?_, ?_⟩, hlay⟩
  · rw [recordCommitted_free]
    exact hs.free
  · unfold FreeEnd
    rw [recordCommitted_free, hgeo]
    exact hs.freeEdges
  · rw [recordCommitted_committed]
    exact hs.committed.overwrite hp
  · rw [recordCommitted_committed]
    exact hs.committed.edges_overwrite hp hs.committedEdges ha (Nat.dvd_add ha hn)
  · rw [hlay]
    exact hs.apart.place _ _ _

theorem ListInv.giveBack (hs : s.ListInv) (hfit : a.toNat + n.toNat < 2 ^ 64)
    (hlo : s.FreeEnd a.toNat) (hhi : s.FreeEnd (a.toNat + n.toNat))
    (hnone : ∀ x, a.toNat ≤ x → x < a.toNat + n.toNat → ¬ Covers s.committed x) :
    ({ s with free := returnFreeExtent s.free a n }).ListInv ∧
      ∀ x, Covers (returnFreeExtent s.free a n) x ↔
        Covers s.free x ∨ (a.toNat ≤ x ∧ x < a.toNat + n.toNat) := by
  obtain ⟨hnorm, hcov, hedge⟩ := returnFreeExtent_spec hs.free hfit
  refine ⟨⟨hnorm, hedge _ hs.freeEdges hlo hhi, hs.committed, hs.committedEdges, ?_⟩, hcov⟩
  intro x hx
  rcases (hcov x).mp hx with h | ⟨h1, h2⟩
  · exact hs.apart x h
  · exact tagAt_eq_none.mpr (hnone x h1 h2)

@[simp] theorem notify_layout (s : GuestAddressSpace) (b e : UInt64) :
    (s.notify b e).layout = s.layout := by
  obtain ⟨_, hf, hc, _⟩ := s.notify_fields b e
  unfold layout
  rw [hf, hc]

theorem ListInv.notify (hs : s.ListInv) (b e : UInt64) : (s.notify b e).ListInv := by
  obtain ⟨hg, hf, hc, _⟩ := s.notify_fields b e
  refine ⟨?_, ?_, ?_, ?_, ?_⟩
  · rw [hf]; exact hs.free
  · unfold FreeEnd; rw [hf, hg]; exact hs.freeEdges
  · rw [hc]; exact hs.committed
  · rw [hc]; exact hs.committedEdges
  · rw [notify_layout]; exact hs.apart

/-! ## Whole pages inside the gaps -/

variable {s : GuestAddressSpace}

def gapPages (s : GuestAddressSpace) (gaps : List (UInt64 × UInt64)) : Set Nat :=
  {x | ∃ g ∈ gaps, roundUp s.page g.1.toNat ≤ x ∧ x < roundDown s.page g.2.toNat}

structure Vacant (s : GuestAddressSpace) (g : UInt64 × UInt64) : Prop where
  low : s.base.toNat ≤ g.1.toNat
  high : g.2.toNat ≤ s.limit
  pos : g.1.toNat < g.2.toNat
  none : ∀ x, g.1.toNat ≤ x → x < g.2.toNat → ¬ Covers s.committed x

def OffLimits (s : GuestAddressSpace) (y : Nat) : Prop :=
  Covers s.committed y ∨ y < s.base.toNat ∨ s.limit ≤ y

theorem Vacant.toNat_low {g : UInt64 × UInt64} (h : s.Vacant g) :
    (s.alignUp g.1).toNat = roundUp s.page g.1.toNat := by
  have := s.limit_add_page
  have := h.pos
  have := h.high
  exact toNat_alignUp (by omega)

theorem mem_gapPages {b e : UInt64} {gaps : List (UInt64 × UInt64)} (hw : Wf s.committed)
    (hg : Gaps s.committed b e gaps) {x : Nat} : x ∈ s.gapPages gaps ↔ ∀ y ∈ pageOf s.page x,
    (b.toNat ≤ y ∧ y < e.toNat) ∧ ¬ Covers s.committed y := by
  have hpos := s.page_pos
  have hx := roundDown_le s.page x
  have hx' := lt_roundDown_add hpos x
  have hd := dvd_roundDown s.page x
  have hd' : s.page ∣ roundDown s.page x + s.page := Nat.dvd_add hd (Nat.dvd_refl _)
  constructor
  · rintro ⟨g, hgs, h1, h2⟩ y hy
    have hgap := hg.isGap g hgs
    have hlow := hgap.low
    have hhigh := hgap.high
    have hru := le_roundUp hpos g.1.toNat
    have hrd := roundDown_le s.page g.2.toNat
    have hp1 := (le_roundDown_iff hpos (dvd_roundUp _ _)).mpr h1
    have hp2 := add_le_of_dvd_of_lt hd (dvd_roundDown s.page g.2.toNat) (by omega)
    rw [mem_pageOf_iff hpos] at hy
    exact ⟨by omega, hgap.free y (by omega) (by omega)⟩
  · intro hpage
    have hpage' : ∀ y, roundDown s.page x ≤ y → y < roundDown s.page x + s.page →
        (b.toNat ≤ y ∧ y < e.toNat) ∧ ¬ Covers s.committed y :=
      fun y h1 h2 => hpage y ((mem_pageOf_iff hpos).mpr ⟨h1, h2⟩)
    obtain ⟨⟨h1, h2⟩, h3⟩ := hpage x rfl
    obtain ⟨g, hgs, hg1, hg2⟩ := hg.all x h1 h2 h3
    have hgap := hg.isGap g hgs
    refine ⟨g, hgs, ?_, ?_⟩
    · refine Nat.le_trans ((roundUp_le_iff hpos hd).mpr ?_) hx
      rcases hgap.left with h | ⟨r, hr, h⟩
      · rw [h]
        exact (hpage' _ le_rfl (by omega)).1.1
      · -- The last byte of `r` is owned and just below the gap.
        have hne := (hw.proper r hr).nonempty
        by_contra hcon
        exact (hpage' (hi r - 1) (by omega) (by omega)).2 ⟨r, hr, by unfold Has; omega⟩
    · refine hx'.trans_le ((le_roundDown_iff hpos hd').mpr ?_)
      rcases hgap.right with h | ⟨r, hr, h⟩
      · rw [h]
        have := (hpage' (roundDown s.page x + s.page - 1) (by omega) (by omega)).1.2
        omega
      · have hne := (hw.proper r hr).nonempty
        by_contra hcon
        exact (hpage' (lo r) (by omega) (by omega)).2 ⟨r, hr, by unfold Has; omega⟩

/-! ## The committed list as a map -/

/-- The committed list is a map from bytes to what was last recorded over them, and the pieces
of an interval that are and are not in it are told in order. -/
theorem committed_list_map (hs : Wf s.committed)
    (hepoch : ∀ r ∈ s.committed, r.epoch.toNat < s.nextEpoch.toNat) :
    (∀ (a n : UInt64) (p : Prot), 0 < n.toNat → a.toNat + n.toNat < 2 ^ 64 →
      let s' := s.recordCommitted a n p
      Wf s'.committed ∧
      (∀ x, tagAt s'.committed x = if a.toNat ≤ x ∧ x < a.toNat + n.toNat
        then some ⟨p, s.nextEpoch, p.has kGuestProtWrite⟩ else tagAt s.committed x) ∧
      ∀ x t, tagAt s.committed x = some t → t.epoch ≠ s.nextEpoch) ∧
    (∀ x, tagAt (coalesce s.committed) x = tagAt s.committed x) ∧
    ∀ b e : UInt64, b.toNat < e.toNat →
      let inside := committedIn s.committed b e
      let outside := uncommittedIn s.committed b e
      (∀ g ∈ inside ++ outside, b.toNat ≤ g.1.toNat ∧ g.1.toNat < g.2.toNat ∧ g.2.toNat ≤ e.toNat) ∧
      (inside.Pairwise fun g g' => g.2.toNat ≤ g'.1.toNat) ∧
      (outside.Pairwise fun g g' => g.2.toNat ≤ g'.1.toNat) ∧
      ∀ x, b.toNat ≤ x → x < e.toNat →
        ((∃ g ∈ inside, g.1.toNat ≤ x ∧ x < g.2.toNat) ↔ Covers s.committed x) ∧
        ((∃ g ∈ outside, g.1.toNat ≤ x ∧ x < g.2.toNat) ↔ ¬ Covers s.committed x) := by
  refine ⟨fun a n p hpos hfit => ?_, fun x => hs.tagAt_congr fun t => hs.fits.holds_join,
    fun b e hbe => ?_⟩
  · have hr : Proper (s.newRange a n p) := ⟨Nat.lt_add_of_pos_right hpos, hfit⟩
    simp only [recordCommitted_committed]
    refine ⟨hs.overwrite hr, hs.tagAt_overwrite hr, fun x t ht heq => ?_⟩
    obtain ⟨r, hmem, -, rfl⟩ := holds_of_tagAt ht
    have hlt := hepoch r hmem
    exact Nat.ne_of_lt hlt (congrArg UInt64.toNat heq)
  · have hgaps := gaps_uncommittedIn hs b e
    refine ⟨fun g hg => ?_, ?_, hgaps.sorted, fun x hb he => ⟨⟨?_, covers_committedIn hs hb he⟩,
      ⟨?_, hgaps.all x hb he⟩⟩⟩
    · rcases List.mem_append.mp hg with hg | hg
      · obtain ⟨h₁, h₂, h₃⟩ := committedIn_inside hs hbe hg
        exact ⟨h₁, h₃, h₂⟩
      · exact ⟨(hgaps.isGap g hg).low, (hgaps.isGap g hg).pos, (hgaps.isGap g hg).high⟩
    · have hsplit := List.take_append_drop (firstRangeEndingAfter s.committed b) s.committed
      rw [← hsplit] at hs
      exact committedFrom_sorted (wf_append.mp hs).2.1 b e
    · rintro ⟨g, hg, h₁, h₂⟩
      obtain ⟨r, hr, -, rfl⟩ := (mem_committedIn hs).mp hg
      rw [toNat_wordMax, toNat_wordMin, stop_toNat (hs.proper r hr).fits] at *
      exact ⟨r, hr, (by change r.begin.toNat ≤ x; omega), by omega⟩
    · rintro ⟨g, hg, h₁, h₂⟩
      exact (hgaps.isGap g hg).free x h₁ h₂

/-- Two ranges, and a third that takes the end of one and the start of the other. -/
theorem committed_list_map_twoRanges :
    let s := { new .oneMegabyte with
      committed := [⟨0x100000000, 0x4000, 3, 1, true⟩, ⟨0x100008000, 0x4000, 3, 2, false⟩]
      nextEpoch := 3 }
    let s' := s.recordCommitted 0x100002000 0x8000 1
    Wf s'.committed ∧ s'.committed = [⟨0x100000000, 0x2000, 3, 1, true⟩,
        ⟨0x100002000, 0x8000, 1, 3, false⟩, ⟨0x10000A000, 0x2000, 3, 2, false⟩] ∧
      tagAt s'.committed 0x100003000 = some ⟨1, 3, false⟩ ∧
      tagAt s'.committed 0x10000B000 = tagAt s.committed 0x10000B000 := by
  intro s s'
  have hs : Wf s.committed := wf_iff.mpr ⟨fun r hr => ⟨by revert r; decide, by revert r; decide⟩,
    by decide⟩
  obtain ⟨hwf, htags, -⟩ := (committed_list_map hs (by decide)).1 0x100002000 0x8000 1 (by decide)
    (by decide)
  exact ⟨hwf, by decide +kernel, htags 0x100003000, htags 0x10000B000⟩

end GuestAddressSpace

end Fathom
