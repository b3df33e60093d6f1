import Fathom.Proofs.Arena

/-!
# Committing a span

What `CommitRange` does to the host, and what taking a free span and recording it does
to the arena.
-/

namespace Fathom

open Lib Spanned Host

namespace GuestAddressSpace

variable {y : Nat} {gaps : List (UInt64 × UInt64)} {s : GuestAddressSpace}

/-! ## The host's side -/

def fillGap (s : GuestAddressSpace) (h : Host) (gap : UInt64 × UInt64) : Host :=
  if s.alignDown gap.2 > s.alignUp gap.1
  then (h.mapFreshAnonymous (s.alignUp gap.1) (s.alignDown gap.2 - s.alignUp gap.1)).2
  else h

theorem commitRange_eq (s : GuestAddressSpace) (h : Host) (b e : UInt64) (hp : HostProt) :
    commitRange h b e s.pageSize hp s.committed =
      ((gapsFrom e b s.committed).foldl s.fillGap h).mprotect (s.alignDown b)
        (s.alignUp e - s.alignDown b) hp := rfl

theorem foldl_fillGap_spec : ∀ {h : Host}, h.Succeeds → (∀ g ∈ gaps, s.Vacant g) →
      (gaps.foldl s.fillGap h).Succeeds ∧
        (∀ x, x ∈ s.gapPages gaps → (gaps.foldl s.fillGap h).mem x = 0) ∧
        (∀ x, x ∉ s.gapPages gaps → (gaps.foldl s.fillGap h).mem x = h.mem x ∧
            (gaps.foldl s.fillGap h).prot x = h.prot x) := by
  induction gaps with
  | nil =>
    intro h hs _
    exact ⟨hs, fun x hx => absurd hx (by simp [gapPages]), fun _ _ => ⟨rfl, rfl⟩⟩
  | cons g rest ih =>
    intro h hs hv
    have hg := hv g (by simp)
    have hlow := hg.toNat_low
    have hhigh := s.toNat_alignDown g.2
    have hpages : ∀ x, x ∈ s.gapPages (g :: rest) ↔
        ((s.alignUp g.1).toNat ≤ x ∧ x < (s.alignDown g.2).toNat) ∨ x ∈ s.gapPages rest := by
      rw [hlow, hhigh]
      simp [gapPages]
    have hstep : (s.fillGap h g).Succeeds ∧
        ∀ x, ((s.alignUp g.1).toNat ≤ x ∧ x < (s.alignDown g.2).toNat → (s.fillGap h g).mem x = 0) ∧
        (¬ ((s.alignUp g.1).toNat ≤ x ∧ x < (s.alignDown g.2).toNat) →
          (s.fillGap h g).mem x = h.mem x ∧ (s.fillGap h g).prot x = h.prot x) := by
      unfold fillGap
      split
      next hlt =>
        have hsub := toNat_sub_of_le hlt.le
        refine ⟨(hs.mapFresh _ _).2, fun x => ?_⟩
        have hin : inSpan (s.alignUp g.1) (s.alignDown g.2 - s.alignUp g.1) x =
            true ↔ (s.alignUp g.1).toNat ≤ x ∧ x < (s.alignDown g.2).toNat := by
          rw [inSpan_iff]
          omega
        constructor
        · intro hx
          rw [hs.mapFresh_mem, if_pos (hin.mpr hx)]
        · intro hx
          rw [hs.mapFresh_mem, hs.mapFresh_prot, if_neg (fun hc => hx (hin.mp hc)),
            if_neg (fun hc => hx (hin.mp hc))]
          exact ⟨rfl, rfl⟩
      next hlt =>
        rw [gt_iff_lt, UInt64.lt_iff_toNat_lt] at hlt
        exact ⟨hs, fun x => ⟨fun hx => by omega, fun _ => ⟨rfl, rfl⟩⟩⟩
    obtain ⟨hs1, hmem1⟩ := hstep
    obtain ⟨hs2, hzero, hkeep⟩ := ih hs1 fun g' hg' => hv g' (by simp [hg'])
    rw [List.foldl_cons]
    refine ⟨hs2, fun x hx => ?_, fun x hx => ?_⟩
    · by_cases hr : x ∈ s.gapPages rest
      · exact hzero x hr
      · rw [(hkeep x hr).1]
        exact (hmem1 x).1 (((hpages x).mp hx).resolve_right hr)
    · rw [hpages, not_or] at hx
      rw [(hkeep x hx.2).1, (hkeep x hx.2).2]
      exact (hmem1 x).2 hx.1

theorem foldl_fillGap_elsewhere (hv : ∀ g ∈ gaps, s.Vacant g)
    (hy : ∀ g ∈ gaps, ¬ (g.1.toNat ≤ y ∧ y < g.2.toNat)) :
    ∀ h : Host, (gaps.foldl s.fillGap h).mem y = h.mem y := by
  induction gaps with
  | nil =>
    intro h
    rfl
  | cons g _ ih =>
    intro h
    have hg := hv g (by simp)
    have hlow := hg.toNat_low
    have hhigh := s.toNat_alignDown g.2
    have hup := le_roundUp s.page_pos g.1.toNat
    have hdown := roundDown_le s.page g.2.toNat
    have hout := hy g (by simp)
    rw [List.foldl_cons, ih (fun g' hg' => hv g' (by simp [hg']))
      (fun g' hg' => hy g' (by simp [hg']))]
    unfold fillGap
    split
    next hlt =>
      refine mapFreshAnonymous_mem fun hin => ?_
      rw [inSpan_iff, toNat_sub_of_le hlt.le] at hin
      omega
    · rfl

theorem Vacant.not_offLimits {g : UInt64 × UInt64} (hg : s.Vacant g) (hy : s.OffLimits y) :
    ¬ (g.1.toNat ≤ y ∧ y < g.2.toNat) := by
  have hlo := hg.low
  have hhi := hg.high
  intro hin
  rcases hy with hy | hy
  · exact hg.none y hin.1 hin.2 hy
  · omega

variable {b e : UInt64}

section

variable (hw : Wf s.committed) (h : Host) (hlo : s.base.toNat ≤ b.toNat) (hhi : e.toNat ≤ s.limit)
include hw hlo hhi

theorem vacant_gapsFrom : ∀ g ∈ gapsFrom e b s.committed, s.Vacant g := by
  intro g hg
  have hgap := (hw.gaps b e).isGap g hg
  exact ⟨hlo.trans hgap.low, hgap.high.trans hhi, hgap.pos, hgap.free⟩

theorem commitRange_kept (hp : HostProt) (hy : s.OffLimits y) :
    (commitRange h b e s.pageSize hp s.committed).2.mem y = h.mem y := by
  have hv := vacant_gapsFrom hw hlo hhi
  rw [commitRange_eq, mprotect_mem]
  exact foldl_fillGap_elsewhere hv (fun g hg => (hv g hg).not_offLimits hy) h

theorem commitRange_elsewhere (hp : HostProt) (hy : ¬ (b.toNat ≤ y ∧ y < e.toNat)) :
    (commitRange h b e s.pageSize hp s.committed).2.mem y = h.mem y := by
  rw [commitRange_eq, mprotect_mem]
  refine foldl_fillGap_elsewhere (vacant_gapsFrom hw hlo hhi) (fun g hg hin => hy ?_) h
  have hgap := (hw.gaps b e).isGap g hg
  have hlow := hgap.low
  have hhigh := hgap.high
  omega

end

structure Commits (s : GuestAddressSpace) (b e : Nat) (hp : HostProt) (h h' : Host) : Prop where
  succeeds : h'.Succeeds
  zero : ∀ x, (∀ y ∈ pageOf s.page x, (b ≤ y ∧ y < e) ∧ ¬ Covers s.committed y) → h'.mem x = 0
  rest : ∀ x, ¬ (∀ y ∈ pageOf s.page x, (b ≤ y ∧ y < e) ∧ ¬ Covers s.committed y) →
    h'.mem x = h.mem x
  prot : ∀ x, roundDown s.page b ≤ x → x < roundUp s.page e → h'.prot x = hp
  frame : ∀ x, ¬ (roundDown s.page b ≤ x ∧ x < roundUp s.page e) → h'.prot x = h.prot x

theorem Commits.keep {b e : Nat} {hp : HostProt} {h h' : Host} (hc : s.Commits b e hp h h')
    (x : Nat) (hx : ¬ (b ≤ x ∧ x < e) ∨ Covers s.committed x) : h'.mem x = h.mem x := by
  refine hc.rest x fun hpage => ?_
  have hown := hpage x rfl
  rcases hx with hx | hx
  · exact hx hown.1
  · exact hown.2 hx

theorem commitRange_spec {h : Host} (hw : Wf s.committed) (hh : h.Succeeds)
    (hbe : b.toNat < e.toNat) (hlo : s.base.toNat ≤ b.toNat) (hhi : e.toNat ≤ s.limit)
    (hp : HostProt) : (commitRange h b e s.pageSize hp s.committed).1 = true ∧
    s.Commits b.toNat e.toNat hp h (commitRange h b e s.pageSize hp s.committed).2 := by
  have hroom := s.limit_add_page
  have hb := s.toNat_alignDown b
  have he := s.toNat_alignUp (v := e) (by omega)
  have hb1 := roundDown_le s.page b.toNat
  have he1 := le_roundUp s.page_pos e.toNat
  have hgaps := hw.gaps b e
  obtain ⟨hs1, hzero, hkeep⟩ := foldl_fillGap_spec hh (vacant_gapsFrom hw hlo hhi)
  have hspan : ∀ x, inSpan (s.alignDown b) (s.alignUp e - s.alignDown b) x = true ↔
      roundDown s.page b.toNat ≤ x ∧ x < roundUp s.page e.toNat := by
    intro x
    rw [inSpan_iff, toNat_sub_of_le (by omega)]
    omega
  rw [commitRange_eq]
  refine ⟨(hs1.mprotect _ _ _).1, (hs1.mprotect _ _ _).2, ?_, ?_, ?_, ?_⟩
  · intro x hx
    rw [mprotect_mem]
    exact hzero x ((mem_gapPages hw hgaps).mpr hx)
  · intro x hx
    rw [mprotect_mem]
    exact (hkeep x fun hin => hx ((mem_gapPages hw hgaps).mp hin)).1
  · intro x h1 h2
    rw [hs1.mprotect_prot, if_pos ((hspan x).mpr ⟨h1, h2⟩)]
  · intro x hx
    rw [hs1.mprotect_prot, if_neg (fun hc => hx ((hspan x).mp hc))]
    refine (hkeep x fun hin => ?_).2
    have hown := ((mem_gapPages hw hgaps).mp hin x rfl).1
    omega

/-! ## The arena's side -/

structure Takes (s : GuestAddressSpace) (a n : UInt64) : Prop where
  pos : 0 < n.toNat
  fits : a.toNat + n.toNat < 2 ^ 64
  start : s.page ∣ a.toNat
  length : s.page ∣ n.toNat
  free : ∀ x, a.toNat ≤ x → x < a.toNat + n.toNat → Covers s.free x

variable {a n : UInt64}

theorem Takes.toNat_stop (ht : s.Takes a n) :
    (a + n).toNat = a.toNat + n.toNat := toNat_add_of_lt ht.fits

theorem Takes.mem_arena (ht : s.Takes a n) (hs : s.ListInv) :
    s.base.toNat ≤ a.toNat ∧ a.toNat + n.toNat ≤ s.limit := by
  have hpos := ht.pos
  have h1 := hs.free_mem (ht.free a.toNat le_rfl (by omega))
  have h2 := hs.free_mem (ht.free (a.toNat + n.toNat - 1) (by omega) (by omega))
  omega

section

variable (hs : s.ListInv)
include hs

theorem ListInv.taken (ht : s.Takes a n) :
    ({ s with free := takeFreeSpan s.free a (a + n) }).ListInv ∧
      ({ s with free := takeFreeSpan s.free a (a + n) }).layout =
        s.layout.withhold a.toNat (a.toNat + n.toNat) := by
  have hpos := ht.pos
  have hstop := ht.toNat_stop
  have h := hs.withhold (e := a + n) (by omega) (.inl ht.start)
    (.inl (by rw [hstop]; exact Nat.dvd_add ht.start ht.length))
  rwa [hstop] at h

theorem ListInv.takenRecorded (ht : s.Takes a n) (p : Prot) :
    (({ s with free := takeFreeSpan s.free a (a + n) }).recordCommitted a n p).ListInv ∧
      (({ s with free := takeFreeSpan s.free a (a + n) }).recordCommitted a n p).layout =
        s.layout.place a.toNat (a.toNat + n.toNat) (s.newAttr p) := by
  obtain ⟨hs1, hlay⟩ := hs.taken ht
  have hmem : ∀ x, Covers (takeFreeSpan s.free a (a + n)) x ↔
      Covers s.free x ∧ ¬ (a.toNat ≤ x ∧ x < a.toNat + n.toNat) := by
    intro x
    rw [covers_takeFreeSpan hs.free, ht.toNat_stop]
  obtain ⟨hs2, hlay2⟩ := hs1.record p ht.pos ht.fits (Nat.dvd_trans s.guestPage_dvd_page ht.start)
    (Nat.dvd_trans s.guestPage_dvd_page ht.length) (fun x h1 h2 hc => ((hmem x).mp hc).2 ⟨h1, h2⟩)
  refine ⟨hs2, hlay2.trans ?_⟩
  rw [hlay]
  ext x : 2
  · rfl
  · simp [newAttr]

theorem ListInv.takenReturned (ht : s.Takes a n) :
    ({ s with free := returnFreeExtent (takeFreeSpan s.free a (a + n)) a n }).ListInv ∧ ({ s with
          free := returnFreeExtent (takeFreeSpan s.free a (a + n)) a n }).layout =
        s.layout := by
  obtain ⟨hs1, -⟩ := hs.taken ht
  obtain ⟨hlo, hhi⟩ := ht.mem_arena hs
  obtain ⟨hs2, hcov⟩ := hs1.giveBack ht.fits ⟨ht.start, hlo, Nat.le_trans (Nat.le_add_right _ _)
    hhi⟩ ⟨Nat.dvd_add ht.start ht.length, hlo.trans (Nat.le_add_right _ _), hhi⟩
    (fun x h1 h2 => hs.not_covers (ht.free x h1 h2))
  refine ⟨hs2, ?_⟩
  ext x : 2
  · rfl
  · refine (hcov x).trans ?_
    rw [covers_takeFreeSpan hs.free, ht.toNat_stop]
    constructor
    · rintro (⟨h, _⟩ | ⟨h1, h2⟩)
      · exact h
      · exact ht.free x h1 h2
    · intro h
      by_cases hx : a.toNat ≤ x ∧ x < a.toNat + n.toNat
      · exact .inr hx
      · exact .inl ⟨h, hx⟩

theorem commitTaken_spec (h : Host) (ht : s.Takes a n) (p : Prot) :
    let out := s.commitTaken h (takeFreeSpan s.free a (a + n)) a n p
    out.space.ListInv ∧ out.space.toGeometry = s.toGeometry ∧
      ((out.ret = 0 ∧ out.space.layout = s.layout) ∨
        (out.ret = a ∧ out.space.layout =
          s.layout.place a.toNat (a.toNat + n.toNat) (s.newAttr p))) := by
  intro out
  obtain ⟨hinv, hlay⟩ := hs.takenRecorded ht p
  obtain ⟨hinv', hlay'⟩ := hs.takenReturned ht
  unfold out commitTaken
  dsimp only
  split
  · split
    · refine ⟨hinv.notify _ _, (notify_fields _ _ _).1.trans ?_, .inr ⟨rfl, ?_⟩⟩
      · exact recordCommitted_geometry _ _ _ _
      · rw [notify_layout]
        exact hlay
    · exact ⟨hinv, recordCommitted_geometry _ _ _ _, .inr ⟨rfl, hlay⟩⟩
  · exact ⟨hinv', rfl, .inl ⟨rfl, hlay'⟩⟩

end

/-! ## AdoptCopiedMapping -/

theorem takes_of_takeFreeExtent (hs : s.ListInv) {free : List Extent} (hpos : 0 < n.toNat)
    (hfit : a.toNat + n.toNat < 2 ^ 64) (ha : s.page ∣ a.toNat) (hn : s.page ∣ n.toNat)
    (h : takeFreeExtent s.free a n = some free) :
    free = takeFreeSpan s.free a (a + n) ∧ s.Takes a n := by
  obtain ⟨hf, hcov⟩ := takeFreeExtent_some hs.free hpos hfit h
  exact ⟨hf, hpos, hfit, ha, hn, hcov⟩

theorem takeFreeExtent_of_takes (hs : s.ListInv) (ht : s.Takes a n) :
    takeFreeExtent s.free a n = some (takeFreeSpan s.free a (a + n)) := by
  have hpos := ht.pos
  obtain ⟨e, he, h1, h2⟩ := hs.free.mem_of_covers
    (show a.toNat < a.toNat + n.toNat by omega) ht.free
  exact takeFreeExtent_isSome hs.free ht.pos ht.fits ⟨e, he, h1, h2⟩

def clearWritten (s : GuestAddressSpace) (address size : UInt64) : GuestAddressSpace :=
  { s with
    committed := s.committed.map fun range =>
      if range.begin = address ∧ range.size = size
      then { range with written := false } else range }

theorem ListInv.clearWritten (hs : s.ListInv) {t : Attr}
    (hin : ∀ x, a.toNat ≤ x → x < a.toNat + n.toNat → tagAt s.committed x = some t) :
    (s.clearWritten a n).ListInv ∧
    ∃ w, (w = false ∨ w = t.written) ∧ (s.clearWritten a n).layout.free = s.layout.free ∧
    ∀ x, (s.clearWritten a n).layout.attr x = if a.toNat ≤ x ∧ x < a.toNat + n.toNat
      then some { t with written := w } else s.layout.attr x := by
  let f : GuestRange → GuestRange := fun range =>
    if range.begin = a ∧ range.size = n then { range with written := false } else range
  have hb : ∀ r, Spanned.begin (f r) = Spanned.begin r := fun r => by
    unfold f
    split <;> rfl
  have hz : ∀ r, Spanned.size (f r) = Spanned.size r := fun r => by
    unfold f
    split <;> rfl
  have hmap := hs.committed.map hb hz
  have hattr : ∃ w, (w = false ∨ w = t.written) ∧ ∀ x, tagAt (s.committed.map f) x =
      if a.toNat ≤ x ∧ x < a.toNat + n.toNat
      then some { t with written := w } else tagAt s.committed x := by
    by_cases hex : ∃ r ∈ s.committed, r.begin = a ∧ r.size = n
    · obtain ⟨r, hr, rfl, rfl⟩ := hex
      refine ⟨false, .inl rfl, fun x => tagAt_eq fun t' => ?_⟩
      rw [holds_map hb hz]
      split
      next hx =>
        obtain ⟨r', hr', hrx', rfl⟩ := hs.committed.tagAt_eq_some.mp (hin x hx.1 hx.2)
        have heq := hs.committed.eq_of_has hr' hr hrx' hx
        subst heq
        have htag : tag (f r') = { tag r' with written := false } := by
          unfold f
          rw [if_pos ⟨rfl, rfl⟩]
          rfl
        rw [Option.some.injEq, ← htag]
        constructor
        · rintro ⟨q, hq, hqx, rfl⟩
          rw [hs.committed.eq_of_has hq hr hqx hx]
        · intro h
          exact ⟨r', hr, hx, h⟩
      next hx =>
        rw [hs.committed.tagAt_eq_some]
        refine exists_congr fun q => and_congr_right fun hq => and_congr_right fun hqx => ?_
        have hne : ¬ (q.begin = r.begin ∧ q.size = r.size) := by
          rintro ⟨h1, h2⟩
          have hqx' : q.begin.toNat ≤ x ∧ x < q.begin.toNat + q.size.toNat := hqx
          rw [h1, h2] at hqx'
          exact hx hqx'
        unfold f
        rw [if_neg hne]
    · have hid : s.committed.map f = s.committed := by
        refine (List.map_congr_left fun r hr => ?_).trans (List.map_id _)
        exact if_neg fun h => hex ⟨r, hr, h⟩
      refine ⟨t.written, .inr rfl, fun x => ?_⟩
      rw [hid]
      split
      next hx => exact hin x hx.1 hx.2
      · rfl
  obtain ⟨w, hw, htag⟩ := hattr
  refine ⟨⟨hs.free, hs.freeEdges, hmap, edges_map hb hz hs.committedEdges, ?_⟩, w, hw, rfl, htag⟩
  intro x hx
  have hnone := hs.apart x hx
  refine (htag x).trans ?_
  rw [if_neg]
  · exact hnone
  · intro hx'
    have hsome := hin x hx'.1 hx'.2
    rw [layout_attr, hsome] at hnone
    cases hnone

theorem adoptCopiedMapping_spec (hs : s.ListInv) (p : Prot) (written : Bool) (ha : s.page ∣ a.toNat)
    (hn : s.page ∣ n.toNat) (hfit : a.toNat + n.toNat < 2 ^ 64) :
    let out := s.adoptCopiedMapping a n p written
    out.2.ListInv ∧ out.2.toGeometry = s.toGeometry ∧
      ((out.1 = false ∧ out.2 = s ∧ ¬ s.Takes a n) ∨
        (out.1 = true ∧ s.Takes a n ∧ ∃ w, (w = false ∨ w = p.has kGuestProtWrite) ∧
          (written = true → w = p.has kGuestProtWrite) ∧
          out.2.layout = s.layout.place a.toNat (a.toNat + n.toNat) ⟨p, s.nextEpoch, w⟩)) := by
  intro out
  unfold out adoptCopiedMapping
  have hstop := toNat_add_of_lt hfit
  by_cases hbad : n = 0 ∨ a < s.base ∨ a + n > s.base + s.size
  · rw [if_pos hbad]
    refine ⟨hs, rfl, .inl ⟨rfl, rfl, fun ht => ?_⟩⟩
    have hmem := ht.mem_arena hs
    have hpos := ht.pos
    rw [UInt64.lt_iff_toNat_lt, gt_iff_lt, UInt64.lt_iff_toNat_lt, s.toNat_limit] at hbad
    rcases hbad with rfl | h | h
    · simp at hpos
    · omega
    · omega
  · rw [if_neg hbad]
    have hpos : 0 < n.toNat := by
      rcases Nat.eq_zero_or_pos n.toNat with h | h
      · exact absurd (.inl (UInt64.toNat_inj.mp h)) hbad
      · exact h
    split
    next hnone =>
      refine ⟨hs, rfl, .inl ⟨rfl, rfl, fun ht => ?_⟩⟩
      rw [takeFreeExtent_of_takes hs ht] at hnone
      cases hnone
    next free hfree =>
      obtain ⟨rfl, ht⟩ := takes_of_takeFreeExtent hs hpos hfit ha hn hfree
      obtain ⟨hinv, hlay⟩ := hs.takenRecorded ht p
      have hgeo := recordCommitted_geometry { s with free := takeFreeSpan s.free a (a + n) } a n p
      split
      · exact ⟨hinv, hgeo, .inr ⟨rfl, ht, _, .inr rfl, fun _ => rfl, hlay⟩⟩
      next hwr =>
        obtain ⟨hinv', w, hw, hf, hattr⟩ := hinv.clearWritten (fun x h1 h2 => by
            have := congrFun (congrArg Layout.attr hlay) x
            rw [Layout.place_attr, if_pos ⟨h1, h2⟩] at this
            exact this)
        refine ⟨hinv', hgeo, .inr ⟨rfl, ht, w, hw, fun h => absurd h hwr, ?_⟩⟩
        ext x : 2
        · refine (hattr x).trans ?_
          rw [hlay, Layout.place_attr, Layout.place_attr]
          split <;> rfl
        · change x ∈ (GuestAddressSpace.clearWritten _ a n).layout.free ↔ _
          rw [hf, hlay]
          rfl

theorem adoptCopiedMapping_edges (hs : s.ListInv) (p : Prot) (written : Bool)
    (hfit : a.toNat + n.toNat < 2 ^ 64) {B : Nat → Prop} (hB : Edges B s.committed)
    (hlo : B a.toNat) (hhi : B (a.toNat + n.toNat)) :
    Edges B (s.adoptCopiedMapping a n p written).2.committed := by
  unfold adoptCopiedMapping
  split
  · exact hB
  next hbad =>
    have hpos : 0 < n.toNat := by
      rcases Nat.eq_zero_or_pos n.toNat with h | h
      · exact absurd (.inl (UInt64.toNat_inj.mp h)) hbad
      · exact h
    split
    · exact hB
    next free _ =>
      have hrec : Edges B (({ s with free }).recordCommitted a n p).committed := by
        rw [recordCommitted_committed]
        exact hs.committed.edges_overwrite (proper_newRange _ p hpos hfit) hB hlo hhi
      split
      · exact hrec
      · refine edges_map (fun r => ?_) (fun r => ?_) hrec <;> split <;> rfl

/-! ## Allocation: first fit -/

variable {s : GuestAddressSpace}

def Starts (s : GuestAddressSpace) (low length : Nat) : Set Nat :=
  {a | s.page ∣ a ∧ low ≤ a ∧ ∀ x, a ≤ x → x < a + length → Covers s.free x}

def HasRoom (low length : UInt64) (e : Extent) : Prop := max (lo e) low.toNat + length.toNat ≤ hi e

variable {length : UInt64}

theorem firstFit_spec {free : List Extent} (low : UInt64) (hf : Normal free)
    (hpos : 0 < length.toNat) : ∀ {extents : List Extent}, (∀ e ∈ extents, e ∈ free) →
    (firstFit free low length extents = none ∧ ∀ e ∈ extents, ¬ HasRoom low length e) ∨
    ∃ before e after a, extents = before ++ e :: after ∧
    (∀ e' ∈ before, ¬ HasRoom low length e') ∧ HasRoom low length e ∧
    a.toNat = max (lo e) low.toNat ∧
    firstFit free low length extents = some (a, takeFreeSpan free a (a + length)) := by
  intro extents
  induction extents with
  | nil => exact fun _ => .inl ⟨rfl, fun _ h => absurd h (by simp)⟩
  | cons e rest ih =>
    intro hsub
    have he := hsub e (by simp)
    have hp := hf.proper e he
    have hst := stop_toNat hp.fits
    have hfrom := toNat_wordMax e.begin low
    change _ = max (lo e) low.toNat at hfrom
    have hskip : (wordMax e.begin low ≥ Spanned.stop e ∨
        Spanned.stop e - wordMax e.begin low < length) ↔ ¬ HasRoom low length e := by
      unfold HasRoom
      rw [ge_iff_le, UInt64.le_iff_toNat_le, UInt64.lt_iff_toNat_lt, hst, hfrom]
      by_cases hle : hi e ≤ max (lo e) low.toNat
      · exact ⟨fun _ => by omega, fun _ => .inl hle⟩
      · rw [toNat_sub_of_le (by omega), hst]
        omega
    rw [firstFit]
    by_cases hroom : HasRoom low length e
    · rw [if_neg (fun h => hskip.mp h hroom)]
      have hfits := hp.fits
      have hroom' := hroom
      unfold HasRoom at hroom'
      have htake := takeFreeExtent_isSome hf hpos
        (show (wordMax e.begin low).toNat + length.toNat < 2 ^ 64 by omega)
        ⟨e, he, by unfold Extent.Contains; omega⟩
      rw [htake]
      exact .inr ⟨[], e, rest, _, rfl, fun _ h => absurd h (by simp), hroom, hfrom, rfl⟩
    · rw [if_pos (hskip.mpr hroom)]
      rcases ih fun e' h => hsub e' (by simp [h]) with ⟨hn, hall⟩ | hsome
      · refine .inl ⟨hn, fun e' h => ?_⟩
        rcases List.mem_cons.mp h with rfl | h
        · exact hroom
        · exact hall e' h
      · obtain ⟨before, e', after, a, hsplit, hbefore, hrest⟩ := hsome
        refine .inr ⟨e :: before, e', after, a, by rw [hsplit]; rfl, ?_, hrest⟩
        intro e'' h
        rcases List.mem_cons.mp h with rfl | h
        · exact hroom
        · exact hbefore e'' h

theorem ListInv.hasRoom_of_start (hs : s.ListInv) {low : UInt64} {a : Nat} (hpos : 0 < length.toNat)
    (ha : a ∈ s.Starts low.toNat length.toNat) :
    ∃ e ∈ s.free, HasRoom low length e ∧ lo e ≤ a ∧ a + length.toNat ≤ hi e := by
  obtain ⟨_, hlow, hcov⟩ := ha
  obtain ⟨e, he, h1, h2⟩ := hs.free.mem_of_covers (show a < a + length.toNat by omega) hcov
  exact ⟨e, he, by unfold HasRoom; omega, h1, h2⟩

theorem ListInv.firstFit (hs : s.ListInv) (low : UInt64) (hpos : 0 < length.toNat)
    (hlow : s.page ∣ low.toNat) :
    (firstFit s.free low length s.free = none ∧ s.Starts low.toNat length.toNat = ∅) ∨
    ∃ a : UInt64, IsLeast (s.Starts low.toNat length.toNat) a.toNat ∧
    firstFit s.free low length s.free = some (a, takeFreeSpan s.free a (a + length)) := by
  rcases firstFit_spec low hs.free hpos (fun _ h => h) with
    ⟨hn, hall⟩ | ⟨_, e, _, a, hsplit, hbefore, hroom, ha, hsome⟩
  · refine .inl ⟨hn, Set.eq_empty_iff_forall_notMem.mpr fun a ha => ?_⟩
    obtain ⟨e, he, hroom, _⟩ := hs.hasRoom_of_start hpos ha
    exact hall e he hroom
  · have he : e ∈ s.free := by
      rw [hsplit]
      simp
    refine .inr ⟨a, ⟨⟨?_, ?_, ?_⟩, ?_⟩, hsome⟩
    · rw [ha]
      rcases Nat.le_total (lo e) low.toNat with h | h
      · rwa [Nat.max_eq_right h]
      · rw [Nat.max_eq_left h]
        exact (hs.freeEdges e he).1.1
    · omega
    · intro x h1 h2
      unfold HasRoom at hroom
      exact ⟨e, he, by unfold Has; omega⟩
    · intro a' ha'
      obtain ⟨e', he', hroom', h1, h2⟩ := hs.hasRoom_of_start hpos ha'
      obtain ⟨_, hlow', _⟩ := ha'
      rw [hsplit] at he'
      rcases List.mem_append.mp he' with h | h
      · exact absurd hroom' (hbefore e' h)
      · rcases List.mem_cons.mp h with rfl | h
        · omega
        · -- `e'` comes after `e`, so it starts past it.
          have hw := hs.free.wf
          rw [hsplit] at hw
          have := (wf_cons.mp (wf_append.mp hw).2.1).2.1 e' h
          unfold HasRoom at hroom
          omega

/-! ## The search -/

theorem starts_zero (s : GuestAddressSpace) (length : Nat) : s.Starts 0 length = {a | s.page ∣ a ∧
      ∀ x, a ≤ x → x < a + length → Covers s.free x} := by
  ext a
  simp [Starts]

theorem ListInv.starts_floor (hs : s.ListInv) {length : Nat} (hpos : 0 < length) :
    s.Starts s.floor.toNat length = if s.floor.toNat + s.page ≤ 2 ^ 64
      then s.Starts (s.alignUp s.floor).toNat length else ∅ := by
  split
  next hfit =>
    ext a
    refine and_congr_right fun ha => and_congr ?_ Iff.rfl
    rw [toNat_alignUp hfit, roundUp_le_iff s.page_pos ha]
  next hfit =>
    refine Set.eq_empty_iff_forall_notMem.mpr ?_
    rintro a ⟨ha, hlow, hcov⟩
    have hmem := hs.free_mem (hcov a le_rfl (by omega))
    have := s.limit_add_page
    omega

theorem ListInv.findFit (hs : s.ListInv) (hpos : 0 < length.toNat) :
    (s.findFit length = none ∧ s.Starts 0 length.toNat = ∅) ∨
    ∃ a : UInt64, a.toNat ∈ s.Starts 0 length.toNat ∧
    s.findFit length = some (a, takeFreeSpan s.free a (a + length)) ∧
    (IsLeast (s.Starts s.floor.toNat length.toNat) a.toNat ∨
      (s.Starts s.floor.toNat length.toNat = ∅ ∧ IsLeast (s.Starts 0 length.toNat) a.toNat)) := by
  have hany := hs.firstFit 0 hpos (Nat.dvd_zero _)
  have hfloor := hs.firstFit (s.alignUp s.floor) hpos
    (by exact (s.toNat_alignDown _) ▸ dvd_roundDown _ _)
  have hstarts := hs.starts_floor hpos
  have hsub : ∀ {low a : Nat}, a ∈ s.Starts low length.toNat →
      a ∈ s.Starts 0 length.toNat := fun h => ⟨h.1, Nat.zero_le _, h.2.2⟩
  unfold GuestAddressSpace.findFit
  by_cases h0 : s.floor = 0
  · rw [if_neg (not_not.mpr h0)]
    have hz : s.floor.toNat = 0 := by rw [h0]; rfl
    rcases hany with ⟨hn, hempty⟩ | ⟨a, hleast, hsome⟩
    · exact .inl ⟨hn, hempty⟩
    · exact .inr ⟨a, hleast.1, hsome, .inl (by rw [hz]; exact hleast)⟩
  · rw [if_pos h0]
    by_cases hfit : s.floor.toNat + s.page ≤ 2 ^ 64
    · rw [if_pos hfit] at hstarts
      rcases hfloor with ⟨hn, hempty⟩ | ⟨a, hleast, hsome⟩
      · rw [hn]
        rcases hany with ⟨hn', hempty'⟩ | ⟨a, hleast, hsome⟩
        · exact .inl ⟨hn', hempty'⟩
        · exact .inr ⟨a, hleast.1, hsome, .inr ⟨hstarts.trans hempty, hleast⟩⟩
      · rw [hsome]
        exact .inr ⟨a, hsub hleast.1, rfl, .inl (by rw [hstarts]; exact hleast)⟩
    · -- The rounded floor wrapped to zero: both walks are the second one.
      rw [if_neg hfit] at hstarts
      obtain ⟨k, _, _, hk⟩ := s.page_pow
      have hwrap : s.alignUp s.floor = 0 :=
        maskUp_wraps hk (show 2 ^ 64 < s.floor.toNat + s.page by omega)
      rw [hwrap]
      rcases hany with ⟨hn, hempty⟩ | ⟨a, hleast, hsome⟩
      · rw [hn]
        exact .inl ⟨rfl, hempty⟩
      · rw [hsome]
        exact .inr ⟨a, hleast.1, rfl, .inr ⟨hstarts, hleast⟩⟩

/-! ## Allocate -/

def UsableHint (s : GuestAddressSpace) (hint : UInt64) (length : Nat) : Prop :=
  hint ≠ 0 ∧ roundDown s.page hint.toNat ∈ s.Starts 0 length

theorem ListInv.takes_of_start (hs : s.ListInv) {a : UInt64} (hpos : 0 < length.toNat)
    (hlen : s.page ∣ length.toNat) (ha : a.toNat ∈ s.Starts 0 length.toNat) : s.Takes a length := by
  obtain ⟨hd, _, hcov⟩ := ha
  have hlast := hs.free_mem (hcov (a.toNat + length.toNat - 1) (by omega) (by omega))
  have := s.limit_add_page
  have := s.page_pos
  exact ⟨hpos, by omega, hd, hlen, hcov⟩

theorem ListInv.takeHint (hs : s.ListInv) {hint : UInt64} (hpos : 0 < length.toNat)
    (hlen : s.page ∣ length.toNat) (hfit : roundDown s.page hint.toNat + length.toNat < 2 ^ 64) :
    (¬ s.UsableHint hint length.toNat ∧ s.takeHint hint length = none) ∨
    (s.UsableHint hint length.toNat ∧ s.takeHint hint length = some (s.alignDown hint,
        takeFreeSpan s.free (s.alignDown hint) (s.alignDown hint + length))) := by
  have hd := s.toNat_alignDown hint
  rw [← hd] at hfit
  have hsum := toNat_add_of_lt hfit
  have hdvd : s.page ∣ (s.alignDown hint).toNat := by
    rw [hd]
    exact dvd_roundDown _ _
  unfold GuestAddressSpace.takeHint
  dsimp only
  by_cases huse : s.UsableHint hint length.toNat
  · refine .inr ⟨huse, ?_⟩
    have hstart := huse.2
    rw [← hd] at hstart
    have ht := hs.takes_of_start hpos hlen hstart
    have hmem := ht.mem_arena hs
    rw [if_pos, takeFreeExtent_of_takes hs ht]
    · rfl
    · refine ⟨huse.1, ?_, ?_⟩
      · exact hmem.1
      · rw [UInt64.le_iff_toNat_le, s.toNat_limit, hsum]
        exact hmem.2
  · refine .inl ⟨huse, ?_⟩
    split
    next hcond =>
      cases hex : takeFreeExtent s.free (s.alignDown hint) length with
      | none => rfl
      | some _ =>
        have ht := (takes_of_takeFreeExtent hs hpos hfit hdvd hlen hex).2
        refine absurd ⟨hcond.1, ?_⟩ huse
        rw [← hd]
        exact ⟨hdvd, Nat.zero_le _, ht.free⟩
    · rfl

structure AllocFits (s : GuestAddressSpace) (size hint : UInt64) : Prop where
  pos : 0 < size.toNat
  rounds : size.toNat + s.page ≤ 2 ^ 64
  reaches : roundDown s.page hint.toNat + roundUp s.page size.toNat < 2 ^ 64

theorem allocFits_unhinted {size : UInt64} (hpos : 0 < size.toNat)
    (hfit : size.toNat + s.page ≤ 2 ^ 64) : s.AllocFits size 0 := by
  refine ⟨hpos, hfit, ?_⟩
  rw [UInt64.toNat_zero, roundDown_of_dvd (Nat.dvd_zero _)]
  have := roundUp_lt s.page_pos size.toNat
  omega

variable {size hint : UInt64}

section

variable (hs : s.ListInv) (h : Host) (p : Prot) (hfit : s.AllocFits size hint)
include hs hfit

theorem ListInv.allocate_cases : let L := roundUp s.page size.toNat
    (s.Starts 0 L = ∅ ∧ s.allocate h size hint p = ⟨0, h, s⟩) ∨
      ∃ a n : UInt64, n.toNat = L ∧ s.Takes a n ∧
        s.allocate h size hint p = s.commitTaken h (takeFreeSpan s.free a (a + n)) a n p ∧
        ((s.UsableHint hint L ∧ a = s.alignDown hint) ∨
          (¬ s.UsableHint hint L ∧
            (IsLeast (s.Starts s.floor.toNat L) a.toNat ∨
              (s.Starts s.floor.toNat L = ∅ ∧ IsLeast (s.Starts 0 L) a.toNat)))) := by
  intro L
  have hL : (s.alignUp size).toNat = L := toNat_alignUp hfit.rounds
  have hpos : 0 < (s.alignUp size).toNat := by
    have := le_roundUp s.page_pos size.toNat
    have := hfit.pos
    omega
  have hlen : s.page ∣ (s.alignUp size).toNat := by
    rw [hL]
    exact dvd_roundUp _ _
  have hhint := hfit.reaches
  rw [← toNat_alignUp hfit.rounds] at hhint
  have hsize : size ≠ 0 := ne_zero_of_toNat_pos hfit.pos
  unfold allocate
  rw [if_neg hsize]
  dsimp only
  rw [← hL]
  rcases hs.takeHint hpos hlen hhint with ⟨huse, htake⟩ | ⟨huse, htake⟩
  · rw [htake]
    rcases hs.findFit hpos with ⟨hn, hempty⟩ | ⟨a, hstart, hsome, hleast⟩
    · rw [hn]
      exact .inl ⟨hempty, rfl⟩
    · rw [hsome]
      exact .inr ⟨a, _, rfl, hs.takes_of_start hpos hlen hstart, rfl, .inr ⟨huse, hleast⟩⟩
  · rw [htake]
    have hstart := huse.2
    rw [← s.toNat_alignDown hint] at hstart
    exact .inr ⟨_, _, rfl, hs.takes_of_start hpos hlen hstart, rfl, .inl ⟨huse, rfl⟩⟩

theorem allocate_spec : let out := s.allocate h size hint p
    out.space.ListInv ∧ out.space.toGeometry = s.toGeometry ∧
      ((out.ret = 0 ∧ out.space.layout = s.layout) ∨
        ∃ a n : UInt64, n.toNat = roundUp s.page size.toNat ∧ s.Takes a n ∧
          out.ret = a ∧ out.space.layout =
            s.layout.place a.toNat (a.toNat + n.toNat) (s.newAttr p)) := by
  intro out
  unfold out
  rcases hs.allocate_cases h p hfit with ⟨_, heq⟩ | ⟨a, n, hn, ht, heq, _⟩
  · rw [heq]
    exact ⟨hs, rfl, .inl ⟨rfl, rfl⟩⟩
  · rw [heq]
    obtain ⟨hinv, hgeo, hor⟩ := commitTaken_spec hs h ht p
    exact ⟨hinv, hgeo, hor.imp_right fun hlay => ⟨a, n, hn, ht, hlay⟩⟩

end

/-- One host page of read-write memory, allocated in a fresh arena. -/
def onePage : Out UInt64 := (new Geometry.oneMegabyte).allocate fresh 0x4000 0 3

theorem listInv_onePage : onePage.space.ListInv :=
  (allocate_spec (listInv_new _) _ 3 ⟨by decide, by decide, by decide⟩).1

theorem succeeds_onePage : onePage.host.Succeeds := fun _ _ => rfl

/-! ## On a host that answers -/

section

variable (hs : s.ListInv)
include hs

theorem ListInv.starts_empty_iff {length : Nat} (hpos : 0 < length) :
    s.Starts 0 length = ∅ ↔ ∀ e ∈ s.free, hi e - lo e < length := by
  rw [starts_zero, Set.eq_empty_iff_forall_notMem]
  constructor
  · intro hnone e he
    by_contra hcon
    refine hnone (lo e) ⟨(hs.freeEdges e he).1.1, fun x h1 h2 => ⟨e, he, ?_⟩⟩
    unfold Has
    omega
  · rintro hshort a ⟨_, hcov⟩
    obtain ⟨e, he, h1, h2⟩ := hs.free.mem_of_covers (show a < a + length by omega) hcov
    have := hshort e he
    omega

theorem commitTaken_host {h : Host} (hh : h.Succeeds) {a n : UInt64} (ht : s.Takes a n) (p : Prot) :
    let out := s.commitTaken h (takeFreeSpan s.free a (a + n)) a n p
    out.ret = a ∧ out.space.layout = s.layout.place a.toNat (a.toNat + n.toNat) (s.newAttr p) ∧
      s.Commits a.toNat (a.toNat + n.toNat) (toHostProtection p) h out.host := by
  intro out
  have hpos := ht.pos
  have hstop := ht.toNat_stop
  obtain ⟨hlo, hhi⟩ := ht.mem_arena hs
  obtain ⟨hok, hcom⟩ := commitRange_spec hs.committed hh (e := a + n)
    (by omega) hlo (by omega) (toHostProtection p)
  rw [hstop] at hcom
  obtain ⟨_, hlay⟩ := hs.takenRecorded ht p
  unfold out commitTaken
  dsimp only
  rw [if_pos hok]
  refine ⟨rfl, ?_, hcom⟩
  split
  · rw [notify_layout]
    exact hlay
  · exact hlay

theorem allocate_kept (h : Host) (p : Prot) (hfit : s.AllocFits size hint) {x : Nat}
    (hx : s.OffLimits x) : (s.allocate h size hint p).host.mem x = h.mem x := by
  rcases hs.allocate_cases h p hfit with ⟨_, heq⟩ | ⟨a, n, _, ht, heq, _⟩
  · rw [heq]
  · rw [heq]
    obtain ⟨hlo, hhi⟩ := ht.mem_arena hs
    have hkept := commitRange_kept hs.committed h hlo
      (by rw [ht.toNat_stop]; exact hhi) (toHostProtection p) hx
    unfold commitTaken
    dsimp only
    split
    · exact hkept
    · exact hkept

theorem allocate_host {h : Host} (hh : h.Succeeds) (p : Prot) (hfit : s.AllocFits size hint) :
    let L := roundUp s.page size.toNat
    let out := s.allocate h size hint p
    (s.Starts 0 L = ∅ ∧ out = ⟨0, h, s⟩) ∨
      ∃ a n : UInt64, n.toNat = L ∧ s.Takes a n ∧ a ≠ 0 ∧ out.ret = a ∧
        out.space.layout = s.layout.place a.toNat (a.toNat + L) (s.newAttr p) ∧ out.host.Succeeds ∧
        (∀ x, out.host.mem x = if a.toNat ≤ x ∧ x < a.toNat + L then 0 else h.mem x) ∧
        (¬ s.UsableHint hint L → IsLeast (s.Starts s.floor.toNat L) a.toNat ∨
            (s.Starts s.floor.toNat L = ∅ ∧ IsLeast (s.Starts 0 L) a.toNat)) := by
  intro L out
  unfold out
  rcases hs.allocate_cases h p hfit with hnone | ⟨a, n, hn, ht, heq, hwhere⟩
  · exact .inl hnone
  · rw [heq]
    obtain ⟨hret, hlay, hcom⟩ := commitTaken_host hs hh ht p
    have hbase := s.base_pos
    have hmem := ht.mem_arena hs
    have hne : a ≠ 0 := by
      rintro rfl
      exact absurd hmem.1 (by simp; omega)
    change n.toNat = L at hn
    refine .inr ⟨a, n, hn, ht, hne, hret, ?_, hcom.succeeds, fun x => ?_, fun hno => ?_⟩
    · rw [← hn]
      exact hlay
    · rw [← hn]
      split
      next hx =>
        refine hcom.zero x fun y hy => ?_
        have hin := page_subset_span s.page_pos ht.start (Nat.dvd_add ht.start ht.length) hx hy
        exact ⟨hin, hs.not_covers (ht.free y hin.1 hin.2)⟩
      next hx => exact hcom.keep x (.inl hx)
    · rcases hwhere with ⟨huse, _⟩ | ⟨_, hleast⟩
      · exact absurd huse hno
      · exact hleast

end

/-- On a host that answers, `Allocate` is exact. It fails only for want of a
long enough extent; otherwise the bytes it returns were free, are the ones and
the only ones to change hands, and read zero, and without a usable hint they
are the lowest from the floor up, or the lowest of all. -/
theorem allocate_exact (hs : s.ListInv) {h : Host} (hh : h.Succeeds)
    {size hint : UInt64} (p : Prot) (hpos : 0 < size.toNat) (hsize : size.toNat ≤ 2 ^ 63)
    (hhint : roundDown s.page hint.toNat + roundUp s.page size.toNat ≤ 2 ^ 64 - 1) :
    let L := roundUp s.page size.toNat
    let out := s.allocate h size hint p
    let a := out.ret.toNat
    (out.ret = 0 ↔ ∀ e ∈ s.free, hi e - lo e < L) ∧ (out.ret = 0 → out.space = s ∧ out.host = h) ∧
      (out.ret ≠ 0 → (∀ x, a ≤ x → x < a + L → Covers s.free x) ∧
        (∀ x, Covers out.space.free x ↔ Covers s.free x ∧ ¬ (a ≤ x ∧ x < a + L)) ∧
        (∀ x, tagAt out.space.committed x = if a ≤ x ∧ x < a + L
          then some ⟨p, s.nextEpoch, p.has kGuestProtWrite⟩ else tagAt s.committed x) ∧
        (∀ x, out.host.mem x = if a ≤ x ∧ x < a + L then 0 else h.mem x) ∧
        (¬ s.UsableHint hint L → IsLeast (s.Starts s.floor.toNat L) a ∨
            (s.Starts s.floor.toNat L = ∅ ∧ IsLeast (s.Starts 0 L) a))) := by
  intro L out a
  obtain ⟨k, _, h16, hk⟩ := s.page_pow
  have hpage : s.page ≤ 2 ^ 16 := by
    unfold Geometry.page
    rw [hk]
    exact Nat.pow_le_pow_right (by omega) h16
  have hL : 0 < L := by
    have := le_roundUp s.page_pos size.toNat
    omega
  have hfit : s.AllocFits size hint := ⟨hpos, by omega, by omega⟩
  rw [← hs.starts_empty_iff hL]
  unfold a out
  rcases allocate_host hs hh p hfit with ⟨hempty, heq⟩ |
    ⟨a, n, hn, ht, hne, hret, hlay, _, hmem, hleast⟩
  · rw [heq]
    exact ⟨⟨fun _ => hempty, fun _ => rfl⟩, fun _ => ⟨rfl, rfl⟩, fun hno => absurd rfl hno⟩
  · rw [hret]
    have hcov := ht.free
    rw [hn] at hcov
    refine ⟨⟨fun h0 => absurd h0 hne, fun hempty => ?_⟩, fun h0 => absurd h0 hne,
      fun _ => ⟨hcov, fun x => ?_, fun x => ?_, hmem, hleast⟩⟩
    · have hstart : a.toNat ∈ s.Starts 0 L := ⟨ht.start, Nat.zero_le _, hcov⟩
      rw [hempty] at hstart
      exact absurd hstart (by simp)
    · exact Set.ext_iff.mp (congrArg Layout.free hlay) x
    · exact congrFun (congrArg Layout.attr hlay) x

theorem allocate_exact_oneMegabyte :
    let s := new Geometry.oneMegabyte
    let out := s.allocate fresh 20000 0 3
    s.ListInv ∧ (out.ret = 0 ↔ ∀ e ∈ s.free, hi e - lo e < roundUp s.page 20000) :=
  ⟨listInv_new _, (allocate_exact (listInv_new _) succeeds_fresh 3
    (by decide) (by decide) (by decide)).1⟩

end GuestAddressSpace

end Fathom
