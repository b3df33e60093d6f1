import Fathom.Proofs.Protect

/-!
# Fixed mappings

`CommitFixed` has two ways. When the whole rounded interval is free it is taken and
committed like any allocation. When part of it has an owner only the gaps are committed,
one by one (`commitGaps_spec`), and the interval is then given the request's protection:
`Fixes` says what either way leaves of the lists, `FixesHost` of the memory. The pages are
the host's, so a request reaches past its own bytes; a neighbour on such a page keeps what
it had exactly if it had no permission the request does not ask for.
-/

namespace Fathom

open Lib Spanned

namespace GuestAddressSpace

variable {g : UInt64 × UInt64} {p : Prot} {h : Host} {s' : GuestAddressSpace} {x : Nat}
  {gaps rest : List (UInt64 × UInt64)} {s₁ s₂ s : GuestAddressSpace} {a n : UInt64}

/-! ## One gap -/

def InGaps (gaps : List (UInt64 × UInt64)) (x : Nat) : Prop :=
  ∃ g ∈ gaps, g.1.toNat ≤ x ∧ x < g.2.toNat

structure Pending (s : GuestAddressSpace) (g : UInt64 × UInt64) : Prop extends Vacant s g where
  lowPage : 4096 ∣ g.1.toNat
  highPage : 4096 ∣ g.2.toNat
  left : s.page ∣ g.1.toNat ∨ ∃ x, x + 1 = g.1.toNat ∧ Covers s.committed x
  right : s.page ∣ g.2.toNat ∨ Covers s.committed g.2.toNat

structure FillsGaps (p : Prot) (gaps : List (UInt64 × UInt64))
    (s s' : GuestAddressSpace) : Prop where
  inv : s'.ListInv
  geometry : s'.toGeometry = s.toGeometry
  free : ∀ x, Covers s'.free x ↔ Covers s.free x ∧ ¬ InGaps gaps x
  outside : ∀ x, ¬ InGaps gaps x → s'.layout.attr x = s.layout.attr x
  inside : ∀ x, InGaps gaps x → s'.layout.attr x = none ∨
    ∃ epoch, s'.layout.attr x = some ⟨p, epoch, p.has kGuestProtWrite⟩

structure FillsHost (p : Prot) (gaps : List (UInt64 × UInt64))
    (s' : GuestAddressSpace) (h h' : Host) : Prop where
  succeeds : h'.Succeeds
  owned : ∀ x, InGaps gaps x → s'.layout.attr x ≠ none
  zero : ∀ x, x ∈ s'.gapPages gaps → h'.mem x = 0
  rest : ∀ x, x ∉ s'.gapPages gaps → h'.mem x = h.mem x
  prot : ∀ x, h'.prot x = h.prot x ∨ (h'.prot x = toHostProtection p ∧
    ∃ g ∈ gaps, roundDown s'.page g.1.toNat ≤ x ∧ x < roundUp s'.page g.2.toNat)
  opened : ∀ x, InGaps gaps x → h'.prot x = toHostProtection p

def commitGap (protection : Prot) (gap : UInt64 × UInt64) (s : GuestAddressSpace)
    (h : Host) : Host × GuestAddressSpace :=
  let s := { s with free := takeFreeSpan s.free gap.1 gap.2 }
  let (ok, h) := commitRange h gap.1 gap.2 s.pageSize
    (toHostProtection protection) s.committed
  (h, if ok then s.recordCommitted gap.1 (gap.2 - gap.1) protection else s)

theorem commitGaps_cons (p : Prot) (g : UInt64 × UInt64) (rest : List (UInt64 × UInt64))
    (s : GuestAddressSpace) (h : Host) : commitGaps p (g :: rest) s h =
      commitGaps p rest (commitGap p g s h).2 (commitGap p g s h).1 := by
  rw [commitGaps]
  unfold commitGap
  dsimp only
  split <;> rfl

theorem inGaps_singleton : InGaps [g] x ↔ g.1.toNat ≤ x ∧ x < g.2.toNat := by simp [InGaps]

theorem inGaps_cons {g : UInt64 × UInt64} {rest : List (UInt64 × UInt64)} {x : Nat} :
    InGaps (g :: rest) x ↔ InGaps [g] x ∨ InGaps rest x := by
  simp [InGaps]

theorem Pending.sub (hg : s.Pending g) : (g.2 - g.1).toNat = g.2.toNat - g.1.toNat :=
  toNat_sub_of_le hg.pos.le

theorem Pending.recorded (hg : s.Pending g) (hs : s.ListInv) (p : Prot) :
    let s' := ({ s with free := takeFreeSpan s.free g.1 g.2 }).recordCommitted
      g.1 (g.2 - g.1) p
    s'.ListInv ∧ s'.layout = s.layout.place g.1.toNat g.2.toNat (s.newAttr p) := by
  have hpos := hg.pos
  have hhigh := hg.high
  have hroom := s.limit_add_page
  have hpp := s.page_pos
  have hsub := hg.sub
  have hend : g.1.toNat + (g.2 - g.1).toNat = g.2.toNat := by omega
  obtain ⟨hs1, hlay⟩ := hs.withhold hpos hg.left hg.right
  obtain ⟨hs2, hlay2⟩ := hs1.record (n := g.2 - g.1) p (by omega) (by omega)
    hg.lowPage (by rw [hsub]; exact Nat.dvd_sub hg.highPage hg.lowPage)
    (fun x h1 h2 hc => ((covers_takeFreeSpan hs.free).mp hc).2 (by omega))
  refine ⟨hs2, hlay2.trans ?_⟩
  rw [hlay, hend]
  ext x : 2
  · rfl
  · simp [newAttr]

theorem commitGap_fills (hs : s.ListInv) (h : Host) (hg : s.Pending g) (p : Prot) :
    FillsGaps p [g] s (commitGap p g s h).2 := by
  unfold commitGap
  dsimp only
  split
  · obtain ⟨hinv, hlay⟩ := hg.recorded hs p
    refine ⟨hinv, recordCommitted_geometry _ _ _ _, fun x => ?_, fun x hx => ?_,
      fun x hx => .inr ⟨s.nextEpoch, ?_⟩⟩
    · rw [inGaps_singleton]
      exact Set.ext_iff.mp (congrArg Layout.free hlay) x
    · rw [inGaps_singleton] at hx
      rw [hlay, Layout.place_attr, if_neg hx]
    · rw [inGaps_singleton] at hx
      rw [hlay, Layout.place_attr, if_pos hx]
      rfl
  · obtain ⟨hinv, -⟩ := hs.withhold hg.pos hg.left hg.right
    refine ⟨hinv, rfl, fun x => ?_, fun x _ => rfl, fun x hx => .inl ?_⟩
    · rw [inGaps_singleton]
      exact covers_takeFreeSpan hs.free
    · rw [inGaps_singleton] at hx
      exact tagAt_eq_none.mpr (hg.none x hx.1 hx.2)

theorem commitGap_owned (hs : s.ListInv) (hg : s.Pending g) (p : Prot)
    (hok : (commitRange h g.1 g.2 s.pageSize (toHostProtection p) s.committed).1 = true) :
    ∀ x, InGaps [g] x → (commitGap p g s h).2.layout.attr x ≠ none := by
  intro x hx
  rw [inGaps_singleton] at hx
  unfold commitGap
  dsimp only
  rw [if_pos hok, (hg.recorded hs p).2, Layout.place_attr, if_pos hx]
  simp

theorem commitGap_host (hs : s.ListInv) (hh : h.Succeeds) (hg : s.Pending g) (p : Prot) :
    FillsHost p [g] (commitGap p g s h).2 h (commitGap p g s h).1 := by
  obtain ⟨hok, hcom⟩ := commitRange_spec hs.committed hh hg.pos hg.low hg.high (toHostProtection p)
  have hgeo := (commitGap_fills hs h hg p).geometry
  have hpages : ∀ x, x ∈ (commitGap p g s h).2.gapPages [g] ↔ ∀ y ∈ pageOf s.page x,
      (g.1.toNat ≤ y ∧ y < g.2.toNat) ∧ ¬ Covers s.committed y := by
    intro x
    have hone : x ∈ (commitGap p g s h).2.gapPages [g] ↔
        roundUp s.page g.1.toNat ≤ x ∧ x < roundDown s.page g.2.toNat := by
      unfold gapPages
      rw [hgeo]
      simp
    rw [hone, ← pageOf_subset_iff s.page_pos]
    exact forall₂_congr fun y _ => ⟨fun h => ⟨h, hg.none y h.1 h.2⟩, And.left⟩
  refine ⟨hcom.succeeds, commitGap_owned hs hg p hok, fun x hx => hcom.zero x ((hpages x).mp hx),
    fun x hx => hcom.rest x fun h => hx ((hpages x).mpr h), fun x => ?_, fun x hx => ?_⟩
  · rw [hgeo]
    by_cases hx : roundDown s.page g.1.toNat ≤ x ∧ x < roundUp s.page g.2.toNat
    · exact .inr ⟨hcom.prot x hx.1 hx.2, g, by simp, hx⟩
    · exact .inl (hcom.frame x hx)
  · rw [inGaps_singleton] at hx
    exact hcom.prot x (Nat.le_trans (roundDown_le _ _) hx.1)
      (Nat.lt_of_lt_of_le hx.2 (le_roundUp s.page_pos _))

/-! ## All of them -/

theorem FillsGaps.covers (hf : FillsGaps p gaps s s')
    (hnone : ∀ x, InGaps gaps x → ¬ Covers s.committed x) (hx : Covers s.committed x) :
    Covers s'.committed x := by
  have hout : ¬ InGaps gaps x := fun hin => hnone x hin hx
  rw [← tagAt_isSome] at hx ⊢
  have := hf.outside x hout
  rw [layout_attr] at this
  rw [this]
  exact hx

theorem FillsGaps.pending (hf : FillsGaps p gaps s s') (hg : s.Pending g)
    (happart : ∀ x, g.1.toNat ≤ x → x < g.2.toNat → ¬ InGaps gaps x)
    (hnone : ∀ x, InGaps gaps x → ¬ Covers s.committed x) : s'.Pending g := by
  have hgeo := hf.geometry
  have hgrow : ∀ x, Covers s.committed x → Covers s'.committed x := fun x hx => hf.covers hnone hx
  refine ⟨⟨by rw [hgeo]; exact hg.low, by rw [hgeo]; exact hg.high, hg.pos,
    fun x h1 h2 => ?_⟩, hg.lowPage, hg.highPage, ?_, ?_⟩
  · rw [← tagAt_eq_none]
    refine (hf.outside x (happart x h1 h2)).trans ?_
    exact tagAt_eq_none.mpr (hg.none x h1 h2)
  · rw [hgeo]
    exact hg.left.imp_right fun ⟨x, hx, hc⟩ => ⟨x, hx, hgrow x hc⟩
  · rw [hgeo]
    exact hg.right.imp_right (hgrow _)

theorem FillsGaps.cons (h₁ : FillsGaps p [g] s s₁) (h₂ : FillsGaps p rest s₁ s₂) :
    FillsGaps p (g :: rest) s s₂ := by
  refine ⟨h₂.inv, h₂.geometry.trans h₁.geometry, fun x => ?_, fun x hx => ?_, fun x hx => ?_⟩
  · have hcons := @inGaps_cons g rest x
    rw [h₂.free, h₁.free]
    tauto
  · rw [inGaps_cons, not_or] at hx
    rw [h₂.outside x hx.2, h₁.outside x hx.1]
  · by_cases hr : InGaps rest x
    · exact h₂.inside x hr
    · rw [h₂.outside x hr]
      exact h₁.inside x ((inGaps_cons.mp hx).resolve_right hr)

theorem FillsHost.cons {h₁ h₂ : Host} (f₁ : FillsHost p [g] s₁ h h₁) (hf : FillsGaps p rest s₁ s₂)
    (f₂ : FillsHost p rest s₂ h₁ h₂) : FillsHost p (g :: rest) s₂ h h₂ := by
  have hpages : ∀ x, x ∈ s₂.gapPages (g :: rest) ↔ x ∈ s₁.gapPages [g] ∨ x ∈ s₂.gapPages rest := by
    unfold gapPages
    rw [hf.geometry]
    simp
  refine ⟨f₂.succeeds, fun x hx => ?_, fun x hx => ?_, fun x hx => ?_, fun x => ?_, fun x hx => ?_⟩
  · by_cases hr : InGaps rest x
    · exact f₂.owned x hr
    · rw [hf.outside x hr]
      exact f₁.owned x ((inGaps_cons.mp hx).resolve_right hr)
  · by_cases hr : x ∈ s₂.gapPages rest
    · exact f₂.zero x hr
    · rw [f₂.rest x hr]
      exact f₁.zero x (((hpages x).mp hx).resolve_right hr)
  · rw [hpages, not_or] at hx
    rw [f₂.rest x hx.2, f₁.rest x hx.1]
  · rcases f₂.prot x with h2 | ⟨h2, g', hg', hin⟩
    · rw [h2, hf.geometry]
      refine (f₁.prot x).imp_right fun ⟨h1, g', hg', hin⟩ => ⟨h1, g', ?_, hin⟩
      rw [List.mem_singleton.mp hg']
      simp
    · exact .inr ⟨h2, g', by simp [hg'], hin⟩
  · by_cases hr : InGaps rest x
    · exact f₂.opened x hr
    · have h1 := f₁.opened x ((inGaps_cons.mp hx).resolve_right hr)
      rcases f₂.prot x with h2 | ⟨h2, _⟩
      · rw [h2, h1]
      · exact h2

theorem commitGaps_spec :
    ∀ {s : GuestAddressSpace} (h : Host), s.ListInv → (∀ g ∈ gaps, s.Pending g) →
    gaps.Pairwise (fun g g' => g.2.toNat ≤ g'.1.toNat) →
    FillsGaps p gaps s (commitGaps p gaps s h).2 ∧
    (∀ x, ¬ InGaps gaps x → (commitGaps p gaps s h).1.mem x = h.mem x) ∧
    (h.Succeeds → FillsHost p gaps (commitGaps p gaps s h).2 h (commitGaps p gaps s h).1) := by
  induction gaps with
  | nil =>
    intro s h hs _ _
    have hno : ∀ x, ¬ InGaps [] x := fun x hx => by simp [InGaps] at hx
    exact ⟨⟨hs, rfl, fun x => by simp [hno x, commitGaps], fun _ _ => rfl,
        fun x hx => absurd hx (hno x)⟩, fun _ _ => rfl,
      fun hh => ⟨hh, fun x hx => absurd hx (hno x), fun x ⟨_, hg, _⟩ => (nomatch hg),
        fun _ _ => rfl, fun _ => .inl rfl, fun x hx => absurd hx (hno x)⟩⟩
  | cons g _ ih =>
    intro s h hs hpend hsort
    obtain ⟨hg, hrest⟩ := List.pairwise_cons.mp hsort
    have hp := hpend g (by simp)
    have hfill := commitGap_fills hs h hp p
    have hnone : ∀ x, InGaps [g] x → ¬ Covers s.committed x := by
      intro x hx
      rw [inGaps_singleton] at hx
      exact hp.none x hx.1 hx.2
    obtain ⟨hrec, hkept, hhost⟩ := ih (commitGap p g s h).1 hfill.inv
      (fun g' hg' => hfill.pending (hpend g' (by simp [hg'])) (fun x h1 _ hin => by
        rw [inGaps_singleton] at hin
        have := hg g' hg'
        omega) hnone)
      hrest
    rw [commitGaps_cons]
    refine ⟨hfill.cons hrec, fun x hx => ?_, fun hh => ?_⟩
    · rw [inGaps_cons, not_or, inGaps_singleton] at hx
      rw [hkept x hx.2]
      exact commitRange_elsewhere hs.committed h hp.low hp.high _ hx.1
    · have hone := commitGap_host hs hh hp p
      exact hone.cons hrec (hhost hone.succeeds)

/-! ## The gaps of a request -/

theorem ListInv.pending_gaps (hs : s.ListInv) {b e : UInt64} (hb : s.page ∣ b.toNat)
    (he : s.page ∣ e.toNat) (hlo : s.base.toNat ≤ b.toNat) (hhi : e.toNat ≤ s.limit) :
    ∀ g ∈ uncommittedIn s.committed b e, s.Pending g := by
  intro g hg
  have hgap := (gaps_uncommittedIn hs.committed b e).isGap g hg
  have hlast : ∀ r ∈ s.committed, ∃ x, x + 1 = hi r ∧ Covers s.committed x := by
    intro r hr
    have hne := (hs.committed.proper r hr).nonempty
    exact ⟨hi r - 1, by omega, r, hr, by unfold Has; omega⟩
  refine ⟨⟨hlo.trans hgap.low, hgap.high.trans hhi, hgap.pos, hgap.free⟩, ?_, ?_, ?_, ?_⟩
  · rcases hgap.left with h | ⟨r, hr, h⟩
    · rw [h]
      exact Nat.dvd_trans s.guestPage_dvd_page hb
    · rw [← h]
      exact (hs.committedEdges r hr).2
  · rcases hgap.right with h | ⟨r, hr, h⟩
    · rw [h]
      exact Nat.dvd_trans s.guestPage_dvd_page he
    · rw [← h]
      exact (hs.committedEdges r hr).1
  · rcases hgap.left with h | ⟨r, hr, h⟩
    · exact .inl (by rw [h]; exact hb)
    · rw [← h]
      exact .inr (hlast r hr)
  · rcases hgap.right with h | ⟨r, hr, h⟩
    · exact .inl (by rw [h]; exact he)
    · have hne := (hs.committed.proper r hr).nonempty
      exact .inr ⟨r, hr, by unfold Has; omega⟩

theorem ListInv.inGaps_iff (hs : s.ListInv) {b e : UInt64} : InGaps (uncommittedIn s.committed b e)
    x ↔ (b.toNat ≤ x ∧ x < e.toNat) ∧ s.layout.attr x = none := by
  have hgaps := gaps_uncommittedIn hs.committed b e
  rw [layout_attr, tagAt_eq_none]
  constructor
  · rintro ⟨g, hg, h1, h2⟩
    have hgap := hgaps.isGap g hg
    have := hgap.low
    have := hgap.high
    exact ⟨by omega, hgap.free x h1 h2⟩
  · rintro ⟨⟨h1, h2⟩, h3⟩
    exact hgaps.all x h1 h2 h3

/-! ## CommitFixed -/

structure FixedSpan (s : GuestAddressSpace) (a n b e : UInt64) : Prop where
  low : b.toNat = roundDown s.page a.toNat
  high : e.toNat = roundUp s.page (a.toNat + n.toNat)
  pos : b.toNat < e.toNat
  base : s.base.toNat ≤ b.toNat
  limit : e.toNat ≤ s.limit
  lowPage : s.page ∣ b.toNat
  highPage : s.page ∣ e.toNat

theorem fixedSpan (hpos : 0 < n.toNat) (hlo : s.base.toNat ≤ a.toNat)
    (hhi : a.toNat + n.toNat ≤ s.limit) : s.FixedSpan a n (s.alignDown a) (s.alignUp (a + n)) := by
  have hroom := s.limit_add_page
  obtain ⟨-, hb, he⟩ := s.toNat_rounded (a := a) (n := n) (by omega)
  have hb1 := roundDown_le s.page a.toNat
  have he1 := le_roundUp s.page_pos (a.toNat + n.toNat)
  refine ⟨hb, he, by omega, ?_, ?_, ?_, ?_⟩
  · rw [hb]
    exact (le_roundDown_iff s.page_pos s.base_aligned).mpr hlo
  · rw [he]
    exact (roundUp_le_iff s.page_pos s.page_dvd_limit).mpr hhi
  · rw [hb]
    exact dvd_roundDown _ _
  · rw [he]
    exact dvd_roundUp _ _

theorem commitFixed_refused (hfit : a.toNat + n.toNat + s.page ≤ 2 ^ 64)
    (href : n = 0 ∨ a.toNat < s.base.toNat ∨ s.limit < a.toNat + n.toNat) :
    s.commitFixed h a n p = ⟨false, h, s⟩ := by
  have hpp := s.page_pos
  have hsum : (a + n).toNat = a.toNat + n.toNat := toNat_add_of_lt (by omega)
  unfold commitFixed
  by_cases h0 : n = 0
  · rw [if_pos h0]
  · rw [if_neg h0]
    rw [if_pos]
    rw [UInt64.lt_iff_toNat_lt, gt_iff_lt, UInt64.lt_iff_toNat_lt, s.toNat_alignDown,
      toNat_alignUp (by omega), s.toNat_limit, hsum,
      roundDown_lt_iff hpp s.base_aligned, lt_roundUp_iff hpp s.page_dvd_limit]
    exact href.resolve_left h0

def commitFixedFree (s : GuestAddressSpace) (h : Host) (b e : UInt64) (p : Prot) : Out Bool :=
  let s' := { s with free := takeFreeSpan s.free b e }
  let (ok, h) := commitRange h b e s.pageSize (toHostProtection p) s.committed
  if ok then
    let s' := s'.recordCommitted b (e - b) p
    ⟨true, h, if s'.hasHeldCode b e then s'.notify b e else s'⟩
  else ⟨false, h, { s with free := returnFreeExtent s'.free b (e - b) }⟩

def commitFixedMixed (s : GuestAddressSpace) (h : Host) (b e : UInt64) (p : Prot) : Out Bool :=
  let filled := commitGaps p (uncommittedIn s.committed b e) s h
  filled.2.protectLocked filled.1 b (e - b) p

theorem ListInv.commitFixed_cases (hs : s.ListInv) (h : Host) (p : Prot) (hpos : 0 < n.toNat)
    (hlo : s.base.toNat ≤ a.toNat) (hhi : a.toNat + n.toNat ≤ s.limit) : let b := s.alignDown a
    let e := s.alignUp (a + n)
    (s.Takes b (e - b) ∧ s.commitFixed h a n p = s.commitFixedFree h b e p) ∨
      (¬ s.Takes b (e - b) ∧ s.commitFixed h a n p = s.commitFixedMixed h b e p) := by
  intro b e
  have hspan : s.FixedSpan a n b e := fixedSpan hpos hlo hhi
  have hlt := hspan.pos
  have hlim := hspan.limit
  have hroom := s.limit_add_page
  have hpp := s.page_pos
  have hsub : (e - b).toNat = e.toNat - b.toNat := toNat_sub_of_le hlt.le
  have hend : b + (e - b) = e := by
    apply UInt64.toNat_inj.mp
    rw [toNat_add_of_lt (by omega)]
    omega
  have hne : n ≠ 0 := ne_zero_of_toNat_pos hpos
  unfold commitFixed
  rw [if_neg hne]
  rw [if_neg (by
    rw [UInt64.lt_iff_toNat_lt, gt_iff_lt, UInt64.lt_iff_toNat_lt, s.toNat_limit]
    have hbase := hspan.base
    change ¬ (b.toNat < _ ∨ _ < e.toNat)
    omega)]
  by_cases ht : s.Takes b (e - b)
  · refine .inl ⟨ht, ?_⟩
    rw [takeFreeExtent_of_takes hs ht, hend]
    rfl
  · refine .inr ⟨ht, ?_⟩
    cases hex : takeFreeExtent s.free b (e - b) with
    | none => rfl
    | some _ =>
      have hdvd : s.page ∣ (e - b).toNat := by
        rw [hsub]
        exact Nat.dvd_sub hspan.highPage hspan.lowPage
      exact absurd (takes_of_takeFreeExtent hs (show 0 < (e - b).toNat by omega)
        (show b.toNat + (e - b).toNat < 2 ^ 64 by omega) hspan.lowPage hdvd hex).2 ht

structure Fixes (p : Prot) (b e : Nat) (s s' : GuestAddressSpace) : Prop where
  inv : s'.ListInv
  geometry : s'.toGeometry = s.toGeometry
  outside : ∀ x, ¬ (b ≤ x ∧ x < e) →
    s'.layout.attr x = s.layout.attr x ∧ (Covers s'.free x ↔ Covers s.free x)
  owner : ∀ x t, b ≤ x → x < e → s.layout.attr x = some t →
    s'.layout.attr x = some ⟨p, t.epoch, t.written || p.has kGuestProtWrite⟩
  fresh : ∀ x t, b ≤ x → x < e → s.layout.attr x = none → s'.layout.attr x = some t →
    t.protection = p ∧ t.written = p.has kGuestProtWrite

theorem Fixes.covers {b e : Nat} (hf : Fixes p b e s s') (hx : Covers s.committed x) :
    Covers s'.committed x := by
  by_contra hno
  have hafter : s'.layout.attr x = none := tagAt_eq_none.mpr hno
  cases hattr : s.layout.attr x with
  | none => exact tagAt_eq_none.mp hattr hx
  | some t =>
    by_cases hin : b ≤ x ∧ x < e
    · exact nomatch (hf.owner x t hin.1 hin.2 hattr).symm.trans hafter
    · exact nomatch ((hf.outside x hin).1.trans hattr).symm.trans hafter

theorem Fixes.notify {b e : Nat} (hf : Fixes p b e s s') (low high : UInt64) :
    Fixes p b e s (s'.notify low high) := by
  obtain ⟨hgeo, hfree, _⟩ := s'.notify_fields low high
  refine ⟨hf.inv.notify low high, hgeo.trans hf.geometry, ?_, ?_, ?_⟩
  · rw [notify_layout, hfree]
    exact hf.outside
  · rw [notify_layout]
    exact hf.owner
  · rw [notify_layout]
    exact hf.fresh

structure FixesHost (p : Prot) (b e : Nat) (s s' : GuestAddressSpace) (h h' : Host) : Prop where
  succeeds : h'.Succeeds
  taken : ∀ x, b ≤ x → x < e → ¬ Covers s'.free x
  placed : ∀ x, b ≤ x → x < e → s.layout.attr x = none →
    ∃ epoch, s'.layout.attr x = some ⟨p, epoch, p.has kGuestProtWrite⟩
  zero : ∀ x, (∀ y ∈ pageOf s.page x, (b ≤ y ∧ y < e) ∧ s.layout.attr y = none) → h'.mem x = 0
  rest : ∀ x, ¬ (∀ y ∈ pageOf s.page x, (b ≤ y ∧ y < e) ∧ s.layout.attr y = none) →
    h'.mem x = h.mem x
  frame : ∀ x, ¬ (b ≤ x ∧ x < e) → h'.prot x = h.prot x
  prot : ∀ x, b ≤ x → x < e → h'.prot x = toHostProtection p ∨
    (p.has kGuestProtWrite = true ∧ h'.prot x = protReadWrite) ∨
    (p.has kGuestProtWrite = false ∧ s.layout.attr x ≠ none ∧ h'.prot x = h.prot x)

theorem FixesHost.mem {b e : Nat} {h' : Host} (hf : FixesHost p b e s s' h h') (x : Nat)
    (hx : ¬ (b ≤ x ∧ x < e) ∨ s.layout.attr x ≠ none) : h'.mem x = h.mem x := by
  refine hf.rest x fun hpage => ?_
  have hself := hpage x rfl
  rcases hx with hx | hx
  · exact hx hself.1
  · exact hx hself.2

section Paths

variable {b e : UInt64}

theorem sub_span (hlt : b.toNat < e.toNat) :
    b.toNat + (e - b).toNat = e.toNat ∧ b + (e - b) = e := by
  have hsub : (e - b).toNat = e.toNat - b.toNat := toNat_sub_of_le hlt.le
  have hlt' := toNat_lt_word e
  refine ⟨by omega, UInt64.toNat_inj.mp ?_⟩
  rw [toNat_add_of_lt (by omega)]
  omega

section

variable (hs : s.ListInv)
include hs

section

variable (h : Host) (hlt : b.toNat < e.toNat) (ht : s.Takes b (e - b)) (p : Prot)
include hlt ht

theorem commitFixedFree_cases : let out := s.commitFixedFree h b e p
    out.space.ListInv ∧ out.space.toGeometry = s.toGeometry ∧
      ((out.ret = true ∧ out.space.layout = s.layout.place b.toNat e.toNat (s.newAttr p)) ∨
        (out.ret = false ∧ out.space.layout = s.layout)) := by
  intro out
  obtain ⟨hend, hword⟩ := sub_span hlt
  obtain ⟨hinv, hlay⟩ := hs.takenRecorded ht p
  obtain ⟨hinv', hlay'⟩ := hs.takenReturned ht
  rw [hword] at hinv hlay hinv' hlay'
  rw [hend] at hlay
  unfold out commitFixedFree
  dsimp only
  split
  · split
    · refine ⟨hinv.notify _ _, ?_, .inl ⟨rfl, by rw [notify_layout]; exact hlay⟩⟩
      exact (notify_fields _ _ _).1.trans (recordCommitted_geometry _ _ _ _)
    · exact ⟨hinv, recordCommitted_geometry _ _ _ _, .inl ⟨rfl, hlay⟩⟩
  · exact ⟨hinv', rfl, .inr ⟨rfl, hlay'⟩⟩

theorem commitFixedFree_fixes : Fixes p b.toNat e.toNat s (s.commitFixedFree h b e p).space := by
  obtain ⟨hend, _⟩ := sub_span hlt
  have hnone : ∀ x t, b.toNat ≤ x → x < e.toNat → s.layout.attr x ≠ some t := by
    intro x t h1 h2 hx
    have := hs.apart x (ht.free x h1 (by omega))
    rw [hx] at this
    cases this
  obtain ⟨hinv, hgeo, ⟨_, hlay⟩ | ⟨_, hlay⟩⟩ := commitFixedFree_cases hs h hlt ht p
  · refine ⟨hinv, hgeo, fun x hx => ⟨?_, ?_⟩,
      fun x t hb he hx => absurd hx (hnone x t hb he), fun x t hb he _ hx => ?_⟩
    · rw [hlay, Layout.place_attr, if_neg hx]
    · refine (Set.ext_iff.mp (congrArg Layout.free hlay) x).trans ?_
      exact ⟨fun hc => hc.1, fun hc => ⟨hc, by simpa using hx⟩⟩
    · rw [hlay, Layout.place_attr, if_pos ⟨hb, he⟩] at hx
      cases hx
      exact ⟨rfl, rfl⟩
  · refine ⟨hinv, hgeo, fun x _ => ⟨by rw [hlay], ?_⟩,
      fun x t hb he hx => absurd hx (hnone x t hb he), fun x t _ _ hn hx => ?_⟩
    · exact Set.ext_iff.mp (congrArg Layout.free hlay) x
    · rw [hlay, hn] at hx
      cases hx

end

theorem commitFixedFree_host (hh : h.Succeeds) (hlt : b.toNat < e.toNat) (ht : s.Takes b (e - b))
    (p : Prot) : (s.commitFixedFree h b e p).ret = true ∧
    FixesHost p b.toNat e.toNat s (s.commitFixedFree h b e p).space h
      (s.commitFixedFree h b e p).host := by
  obtain ⟨hend, hword⟩ := sub_span hlt
  obtain ⟨_, hlay⟩ := hs.takenRecorded ht p
  rw [hword, hend] at hlay
  obtain ⟨hlo, hhi⟩ := ht.mem_arena hs
  rw [hend] at hhi
  obtain ⟨hok, hcom⟩ := commitRange_spec hs.committed hh hlt hlo hhi (toHostProtection p)
  have hbd : roundDown s.page b.toNat = b.toNat := roundDown_of_dvd ht.start
  have hed : roundUp s.page e.toNat = e.toNat :=
    roundUp_of_dvd s.page_pos (by rw [← hend]; exact Nat.dvd_add ht.start ht.length)
  have hprot := hcom.prot
  have hframe := hcom.frame
  rw [hbd, hed] at hprot hframe
  have hspace : (s.commitFixedFree h b e p).space.layout =
      s.layout.place b.toNat e.toNat (s.newAttr p) := by
    unfold commitFixedFree
    dsimp only
    rw [if_pos hok]
    split
    · rw [notify_layout]
      exact hlay
    · exact hlay
  have hout : (s.commitFixedFree h b e p).ret = true ∧ (s.commitFixedFree h b e p).host =
      (commitRange h b e s.pageSize (toHostProtection p) s.committed).2 := by
    unfold commitFixedFree
    dsimp only
    rw [if_pos hok]
    exact ⟨rfl, rfl⟩
  rw [hout.2]
  have hpages : ∀ x, (∀ y ∈ pageOf s.page x, (b.toNat ≤ y ∧ y < e.toNat) ∧ s.layout.attr y = none) ↔
      ∀ y ∈ pageOf s.page x, (b.toNat ≤ y ∧ y < e.toNat) ∧ ¬ Covers s.committed y :=
    fun x => forall₂_congr fun y _ => and_congr Iff.rfl tagAt_eq_none
  refine ⟨hout.1, hcom.succeeds, fun x h1 h2 hc => ?_, fun x h1 h2 _ => ⟨s.nextEpoch, ?_⟩,
    fun x hx => hcom.zero x ((hpages x).mp hx),
    fun x hx => hcom.rest x fun h => hx ((hpages x).mpr h), fun x hx => hframe x hx,
    fun x h1 h2 => .inl (hprot x h1 h2)⟩
  · have := (Set.ext_iff.mp (congrArg Layout.free hspace) x).mp hc
    exact this.2 ⟨h1, h2⟩
  · rw [hspace, Layout.place_attr, if_pos ⟨h1, h2⟩]
    rfl

variable (h : Host) (p : Prot) (hlt : b.toNat < e.toNat) (hb : s.page ∣ b.toNat)
  (he : s.page ∣ e.toNat) (hhi : e.toNat ≤ s.limit)
include hlt hb he hhi

theorem fixes_of_fills (hfill : FillsGaps p (uncommittedIn s.committed b e) s s₂) :
    Fixes p b.toNat e.toNat s (s₂.protectLocked h b (e - b) p).space ∧
    (s₂.protectLocked h b (e - b) p).space.layout = s₂.layout.retag b.toNat e.toNat
      fun _ t => ⟨p, t.epoch, t.written || p.has kGuestProtWrite⟩ := by
  obtain ⟨hend, -⟩ := sub_span hlt
  have hroom := s.limit_add_page
  have hgeo := hfill.geometry
  have hpage : s₂.page = s.page := by rw [hgeo]
  have hdeg : ¬ s₂.Degenerate b (e - b) := fun hd => by
    have := hd.1
    omega
  obtain ⟨hinv, hgeo', hre⟩ := protectLocked_spec hfill.inv h p
    (show b.toNat + (e - b).toNat + s₂.page ≤ 2 ^ 64 by omega) hdeg
  rw [hend, hpage, roundDown_of_dvd hb, roundUp_of_dvd s.page_pos he,
    roundUp_of_dvd s.page_pos hb, roundDown_of_dvd he] at hre
  have hlay := hre.eq_retag
  have hgap : ∀ x, InGaps (uncommittedIn s.committed b e) x ↔
      (b.toNat ≤ x ∧ x < e.toNat) ∧ s.layout.attr x = none := fun x => hs.inGaps_iff
  refine ⟨⟨hinv, hgeo'.trans hgeo, fun x hx => ⟨?_, ?_⟩, fun x t h1 h2 hx => ?_,
    fun x t h1 h2 hn hx => ?_⟩, hlay⟩
  · rw [hre.outside x hx]
    exact hfill.outside x fun hin => hx ((hgap x).mp hin).1
  · have hfree := Set.ext_iff.mp hre.free x
    refine hfree.trans ((hfill.free x).trans ?_)
    exact ⟨fun hc => hc.1, fun hc => ⟨hc, fun hin => hx ((hgap x).mp hin).1⟩⟩
  · have hout : ¬ InGaps (uncommittedIn s.committed b e) x := fun hin => by
      rw [((hgap x).mp hin).2] at hx
      cases hx
    rw [hlay, Layout.retag_attr, if_pos ⟨h1, h2⟩, hfill.outside x hout, hx]
    rfl
  · rw [hlay, Layout.retag_attr, if_pos ⟨h1, h2⟩] at hx
    obtain hno | ⟨_, hattr⟩ := hfill.inside x ((hgap x).mpr ⟨⟨h1, h2⟩, hn⟩)
    · rw [hno] at hx
      cases hx
    · rw [hattr] at hx
      cases hx
      exact ⟨rfl, Bool.or_self _⟩

theorem commitFixedMixed_fixes (hlo : s.base.toNat ≤ b.toNat) :
    Fixes p b.toNat e.toNat s (s.commitFixedMixed h b e p).space := by
  obtain ⟨hfill, _⟩ := commitGaps_spec h hs
    (hs.pending_gaps hb he hlo hhi) (gaps_uncommittedIn hs.committed b e).sorted
  exact (fixes_of_fills hs _ p hlt hb he hhi hfill).1

theorem commitFixedMixed_host (hlo : s.base.toNat ≤ b.toNat) (hh : h.Succeeds) :
    (s.commitFixedMixed h b e p).ret = true ∧
    FixesHost p b.toNat e.toNat s (s.commitFixedMixed h b e p).space h
      (s.commitFixedMixed h b e p).host := by
  obtain ⟨hend, -⟩ := sub_span hlt
  have hroom := s.limit_add_page
  obtain ⟨hfill, _, hhost⟩ := commitGaps_spec h hs
    (hs.pending_gaps hb he hlo hhi) (gaps_uncommittedIn hs.committed b e).sorted
  have hhost := hhost hh
  unfold commitFixedMixed
  generalize commitGaps p (uncommittedIn s.committed b e) s h = filled at *
  obtain ⟨h₂, s₂⟩ := filled
  obtain ⟨hfix, hlay⟩ := fixes_of_fills hs h₂ p hlt hb he hhi hfill
  have hpage : s₂.page = s.page := by rw [hfill.geometry]
  have hgap : ∀ x, InGaps (uncommittedIn s.committed b e) x ↔
      (b.toNat ≤ x ∧ x < e.toNat) ∧ s.layout.attr x = none := fun x => hs.inGaps_iff
  -- Every byte of the interval has an owner now, old or new.
  have howned : ∀ x, b.toNat ≤ x → x < e.toNat → s₂.layout.attr x ≠ none := by
    intro x h1 h2
    by_cases hin : s.layout.attr x = none
    · exact hhost.owned x ((hgap x).mpr ⟨⟨h1, h2⟩, hin⟩)
    · rw [hfill.outside x fun hc => hin ((hgap x).mp hc).2]
      exact hin
  obtain ⟨hret, hph⟩ := protectLocked_host hfill.inv hhost.succeeds p
    (show b.toNat + (e - b).toNat + s₂.page ≤ 2 ^ 64 by omega)
    ⟨b.toNat, by
      rw [hend, hpage, roundDown_of_dvd hb, roundUp_of_dvd s.page_pos he]
      omega, by
      by_contra hc
      exact howned b.toNat le_rfl hlt (tagAt_eq_none.mpr hc)⟩
  rw [hend, hpage, roundDown_of_dvd hb, roundUp_of_dvd s.page_pos he] at hph
  have hgapSpan : ∀ g ∈ uncommittedIn s.committed b e,
      b.toNat ≤ roundDown s.page g.1.toNat ∧ roundUp s.page g.2.toNat ≤ e.toNat := by
    intro g hg
    have hgp := (gaps_uncommittedIn hs.committed b e).isGap g hg
    exact ⟨(le_roundDown_iff s.page_pos hb).mpr hgp.low,
      (roundUp_le_iff s.page_pos he).mpr hgp.high⟩
  have hpages : ∀ x, x ∈ s₂.gapPages (uncommittedIn s.committed b e) ↔
      ∀ y ∈ pageOf s.page x, (b.toNat ≤ y ∧ y < e.toNat) ∧ s.layout.attr y = none := by
    intro x
    have := mem_gapPages (x := x) hs.committed (gaps_uncommittedIn hs.committed b e)
    unfold gapPages at this ⊢
    rw [hpage, this]
    exact forall₂_congr fun y _ => and_congr Iff.rfl tagAt_eq_none.symm
  refine ⟨hret, hph.succeeds, fun x h1 h2 hc => ?_, fun x h1 h2 hx => ?_, fun x hx => ?_,
    fun x hx => ?_, fun x hx => ?_, fun x h1 h2 => ?_⟩
  · have hown := howned x h1 h2
    have hattr : (s₂.protectLocked h₂ b (e - b) p).space.layout.attr x ≠ none := by
      rw [hlay, Layout.retag_attr, if_pos ⟨h1, h2⟩]
      simpa using hown
    exact hattr (hfix.inv.apart x hc)
  · obtain hn | ⟨epoch, hattr⟩ := hfill.inside x ((hgap x).mpr ⟨⟨h1, h2⟩, hx⟩)
    · exact absurd hn (howned x h1 h2)
    · refine ⟨epoch, ?_⟩
      rw [hlay, Layout.retag_attr, hattr]
      simp
  · rw [hph.mem]
    exact hhost.zero x ((hpages x).mpr hx)
  · rw [hph.mem]
    exact hhost.rest x fun h => hx ((hpages x).mp h)
  · rw [hph.frame x (.inr hx)]
    rcases hhost.prot x with h1 | ⟨_, g, hg, hin⟩
    · exact h1
    · rw [hpage] at hin
      have := hgapSpan g hg
      omega
  · by_cases hw : p.has kGuestProtWrite = true
    · exact .inr (.inl ⟨hw, hph.opened hw x h1 h2⟩)
    · have hw' : p.has kGuestProtWrite = false := by simpa using hw
      rw [hph.frame x (.inl hw')]
      by_cases hx : s.layout.attr x = none
      · exact .inl (hhost.opened x ((hgap x).mpr ⟨⟨h1, h2⟩, hx⟩))
      · rcases hhost.prot x with h3 | ⟨h3, _⟩
        · exact .inr (.inr ⟨hw', hx, h3⟩)
        · exact .inl h3

end

end Paths

variable {a n : UInt64}

theorem protectLocked_mem (s : GuestAddressSpace) (h : Host) (a n : UInt64) (p : Prot) :
    (s.protectLocked h a n p).host.mem = h.mem := by
  unfold protectLocked
  dsimp only
  split_ifs
  · exact Host.mprotect_mem _ _ _ _
  · rfl
  · rfl

section

variable (hs : s.ListInv) (h : Host) (p : Prot) (hpos : 0 < n.toNat)
  (hlo : s.base.toNat ≤ a.toNat) (hhi : a.toNat + n.toNat ≤ s.limit)
include hs hpos hlo hhi

theorem commitFixed_spec : Fixes p (roundDown s.page a.toNat) (roundUp s.page (a.toNat + n.toNat)) s
      (s.commitFixed h a n p).space := by
  have hspan := fixedSpan hpos hlo hhi
  rw [← hspan.low, ← hspan.high]
  rcases hs.commitFixed_cases h p hpos hlo hhi with ⟨ht, heq⟩ | ⟨_, heq⟩
  · rw [heq]
    exact commitFixedFree_fixes hs h hspan.pos ht p
  · rw [heq]
    exact commitFixedMixed_fixes hs h p hspan.pos hspan.lowPage hspan.highPage
      hspan.limit hspan.base

theorem commitFixed_host (hh : h.Succeeds) : (s.commitFixed h a n p).ret = true ∧
      FixesHost p (roundDown s.page a.toNat) (roundUp s.page (a.toNat + n.toNat)) s
        (s.commitFixed h a n p).space h (s.commitFixed h a n p).host := by
  have hspan := fixedSpan hpos hlo hhi
  rw [← hspan.low, ← hspan.high]
  rcases hs.commitFixed_cases h p hpos hlo hhi with ⟨ht, heq⟩ | ⟨_, heq⟩
  · rw [heq]
    exact commitFixedFree_host hs hh hspan.pos ht p
  · rw [heq]
    exact commitFixedMixed_host hs h p hspan.pos hspan.lowPage hspan.highPage
      hspan.limit hspan.base hh

theorem commitFixed_kept (hx : Covers s.committed x) :
    (s.commitFixed h a n p).host.mem x = h.mem x := by
  have hspan := fixedSpan hpos hlo hhi
  rcases hs.commitFixed_cases h p hpos hlo hhi with ⟨_, heq⟩ | ⟨_, heq⟩
  · rw [heq]
    unfold commitFixedFree
    dsimp only
    split
    · exact commitRange_kept hs.committed h hspan.base hspan.limit _ (.inl hx)
    · exact commitRange_kept hs.committed h hspan.base hspan.limit _ (.inl hx)
  · rw [heq]
    obtain ⟨_, hkept, _⟩ := commitGaps_spec h hs
      (hs.pending_gaps hspan.lowPage hspan.highPage hspan.base hspan.limit)
      (gaps_uncommittedIn hs.committed _ _).sorted
    unfold commitFixedMixed
    rw [protectLocked_mem]
    exact hkept x fun hin => tagAt_eq_none.mp (hs.inGaps_iff.mp hin).2 hx

theorem commitFixed_failed (hret : (s.commitFixed h a n p).ret = false) (x : Nat) :
    (s.commitFixed h a n p).space.layout.attr x = s.layout.attr x := by
  have hspan := fixedSpan hpos hlo hhi
  rcases hs.commitFixed_cases h p hpos hlo hhi with ⟨ht, heq⟩ | ⟨_, heq⟩
  · rw [heq] at hret ⊢
    obtain ⟨_, _, ⟨hok, _⟩ | ⟨_, hlay⟩⟩ := commitFixedFree_cases hs h hspan.pos ht p
    · rw [hok] at hret
      cases hret
    · rw [hlay]
  · have hfix := commitFixed_spec hs h p hpos hlo hhi
    rw [heq] at hret hfix ⊢
    rw [← hspan.low, ← hspan.high] at hfix
    have hroom := s.limit_add_page
    have hlim := hspan.limit
    obtain ⟨hend, _⟩ := sub_span hspan.pos
    have hfill := (commitGaps_spec (p := p) h hs
      (hs.pending_gaps hspan.lowPage hspan.highPage hspan.base hspan.limit)
      (gaps_uncommittedIn hs.committed _ _).sorted).1
    have hpage := congrArg Geometry.page hfill.geometry
    unfold commitFixedMixed at hret hfix ⊢
    obtain ⟨hsame, hnone⟩ := protectLocked_refused hfill.inv (by omega) hret
    rw [hend, hpage, roundDown_of_dvd hspan.lowPage,
      roundUp_of_dvd s.page_pos hspan.highPage] at hnone
    by_cases hx : (s.alignDown a).toNat ≤ x ∧ x < (s.alignUp (a + n)).toNat
    · -- Nobody is there now, and nobody was: owners are never taken away.
      have hafter := tagAt_eq_none.mpr (hnone x hx.1 hx.2)
      rw [← hsame] at hafter
      cases hattr : s.layout.attr x with
      | none => exact hafter
      | some t => exact nomatch (hfix.owner x t hx.1 hx.2 hattr).symm.trans hafter
    · exact (hfix.outside x hx).1

end

/-! ## The neighbours of a fixed mapping

The request is rounded out before it reaches `ProtectLocked`, which then finds
nothing to widen: the neighbours that share a host page with the request get
its protection exactly, and lose what theirs had beyond it. -/

/-- No byte outside `[a, a + n)` that had an owner loses a permission bit or
changes value. -/
def KeepsNeighbours (s s' : GuestAddressSpace) (h h' : Host) (a n : UInt64) : Prop :=
  ∀ x t, tagAt s.committed x = some t → ¬ (a.toNat ≤ x ∧ x < a.toNat + n.toNat) →
  (∃ t', tagAt s'.committed x = some t' ∧ Prot.le t.protection t'.protection) ∧ h'.mem x = h.mem x

/-- The neighbours a request reaches, on the host pages it touches, have no
permission it does not ask for. -/
def NeighboursWithin (s : GuestAddressSpace) (a n : UInt64) (p : Prot) : Prop :=
  ∀ x t, roundDown s.page a.toNat ≤ x → x < roundUp s.page (a.toNat + n.toNat) →
  ¬ (a.toNat ≤ x ∧ x < a.toNat + n.toNat) → tagAt s.committed x = some t → Prot.le t.protection p

theorem commitFixed_keeps_neighbours_iff (hs : s.ListInv) {h : Host} (hh : h.Succeeds)
    {a n : UInt64} (p : Prot) (hlo : s.base.toNat ≤ a.toNat) (hhi : a.toNat + n.toNat ≤ s.limit) :
    s.KeepsNeighbours (s.commitFixed h a n p).space h (s.commitFixed h a n p).host a n ↔
    n.toNat = 0 ∨ s.NeighboursWithin a n p := by
  have hroom := s.limit_add_page
  rcases Nat.eq_zero_or_pos n.toNat with h0 | hpos
  · rw [commitFixed_refused (by omega) (.inl (UInt64.toNat_inj.mp h0))]
    exact ⟨fun _ => .inl h0, fun _ x t ht _ => ⟨⟨t, ht, Prot.le_refl _⟩, rfl⟩⟩
  · have hfix := commitFixed_spec hs h p hpos hlo hhi
    have hhost := (commitFixed_host hs h p hpos hlo hhi hh).2
    constructor
    · intro hkeep
      refine .inr fun x t h1 h2 hx ht => ?_
      obtain ⟨⟨t', ht', hle⟩, _⟩ := hkeep x t ht hx
      have := hfix.owner x t h1 h2 ht
      rw [layout_attr, ht'] at this
      rw [Option.some.inj this] at hle
      exact hle
    · rintro (h0 | hwithin)
      · omega
      · intro x t ht hx
        have hne : s.layout.attr x ≠ none := by
          rw [layout_attr, ht]
          simp
        refine ⟨?_, hhost.mem x (.inr hne)⟩
        by_cases hin : roundDown s.page a.toNat ≤ x ∧ x < roundUp s.page (a.toNat + n.toNat)
        · exact ⟨_, hfix.owner x t hin.1 hin.2 ht, hwithin x t hin.1 hin.2 hx ht⟩
        · refine ⟨t, ?_, Prot.le_refl _⟩
          exact ((hfix.outside x hin).1).trans ht

theorem commitFixed_narrows_neighbour :
    let s := onePage.space
    let out := s.commitFixed onePage.host 0x100011000 0x1000 1
    s.ListInv ∧ onePage.host.Succeeds ∧ s.base ≤ 0x100011000 ∧ 0x100011000 + 0x1000 ≤ s.limit ∧
      ¬ s.KeepsNeighbours out.space onePage.host out.host 0x100011000 0x1000 := by
  refine ⟨listInv_onePage, succeeds_onePage, by decide, by decide, fun h => ?_⟩
  obtain ⟨⟨t, ht, hle⟩, _⟩ := h 0x100010000 ⟨3, 1, true⟩ (by decide) (by decide)
  rw [← Option.some.inj ht] at hle
  exact absurd hle (by decide)

theorem commitFixed_keeps_neighbours_onePage :
    let s := onePage.space
    let out := s.commitFixed onePage.host 0x100011000 0x1000 7
    s.KeepsNeighbours out.space onePage.host out.host 0x100011000 0x1000 ↔
      (0x1000 : UInt64).toNat = 0 ∨ s.NeighboursWithin 0x100011000 0x1000 7 :=
  commitFixed_keeps_neighbours_iff listInv_onePage succeeds_onePage 7 (by decide) (by decide)

end GuestAddressSpace

/-! ## What code stores to, whatever is there -/

namespace Host

def StoresTo (f : Host → Host) (S : Set Nat) : Prop :=
  ∀ x, (x ∉ S ∧ ∀ h, (f h).mem x = h.mem x) ∨ (x ∈ S ∧ ∃ v, ∀ h, (f h).mem x = v)

variable {f g : Host → Host} {S T : Set Nat}

theorem storesTo_id : StoresTo id ∅ := fun _ => .inl ⟨id, fun _ => rfl⟩

theorem StoresTo.comp (hg : StoresTo g T) (hf : StoresTo f S) :
    StoresTo (fun h => g (f h)) (S ∪ T) := by
  intro x
  rcases hg x with ⟨hno, hkeep⟩ | ⟨hin, v, hv⟩
  · simp only [Set.mem_union, hno, or_false, hkeep]
    exact hf x
  · exact .inr ⟨.inr hin, v, fun h => hv _⟩

theorem storesTo_store (a n : UInt64) (bytes : Nat → UInt8) :
    StoresTo (fun h => h.store a n bytes) {x | a.toNat ≤ x ∧ x < a.toNat + n.toNat} := by
  intro x
  simp only [store_mem]
  by_cases hx : a.toNat ≤ x ∧ x < a.toNat + n.toNat
  · exact .inr ⟨hx, bytes x, fun h => if_pos hx⟩
  · exact .inl ⟨hx, fun h => if_neg hx⟩

theorem StoresTo.mem_iff (hf : StoresTo f S) (h : Host) (x : Nat) :
    x ∈ S ↔ ∃ m : Nat → UInt8, (f { h with mem := m }).mem x ≠ m x := by
  rcases hf x with ⟨hno, hkeep⟩ | ⟨hin, v, hv⟩
  · simp [hno, hkeep]
  · simp only [hin, hv, true_iff]
    exact ⟨fun _ => v + 1, by simp⟩

theorem StoresTo.kept (hf : StoresTo f S) {x : Nat} (hx : x ∉ S) (h : Host) :
    (f h).mem x = h.mem x := by
  rcases hf x with ⟨_, hkeep⟩ | ⟨hin, _⟩
  · exact hkeep h
  · exact absurd hin hx

end Host

/-! ## Hosts that answer alike -/

structure Host.Alike (h h' : Host) : Prop where
  answers : h'.answers = h.answers
  calls : h'.calls = h.calls

theorem Host.alike_mem (h : Host) (m : Nat → UInt8) : h.Alike { h with mem := m } := ⟨rfl, rfl⟩

namespace Host.Alike

variable {h h' : Host} (ha : h.Alike h')
include ha

theorem next : h'.answers h'.calls = h.answers h.calls := by rw [ha.answers, ha.calls]

section

variable (a n : UInt64)

theorem mapFreshAnonymous : (h.mapFreshAnonymous a n).2.Alike (h'.mapFreshAnonymous a n).2 := by
  simp only [Host.mapFreshAnonymous, ha.next]
  split
  · exact ⟨ha.answers, congrArg (· + 1) ha.calls⟩
  · exact ⟨ha.answers, congrArg (· + 1) ha.calls⟩

theorem mprotect (p : HostProt) : (h'.mprotect a n p).1 = (h.mprotect a n p).1 ∧
      (h.mprotect a n p).2.Alike (h'.mprotect a n p).2 := by
  simp only [Host.mprotect, ha.next]
  split
  · exact ⟨rfl, ha.answers, congrArg (· + 1) ha.calls⟩
  · exact ⟨rfl, ha.answers, congrArg (· + 1) ha.calls⟩

theorem mapReadWrite : (h'.mapReadWrite a n).1 = (h.mapReadWrite a n).1 := by
  simp only [Host.mapReadWrite, ha.next]
  split <;> rfl

end

end Host.Alike

namespace GuestAddressSpace

variable {s : GuestAddressSpace} {h h' : Host}

theorem foldl_fillGap_alike (s : GuestAddressSpace) (gaps : List (UInt64 × UInt64)) :
    ∀ {h h' : Host}, h.Alike h' → (gaps.foldl s.fillGap h).Alike (gaps.foldl s.fillGap h') := by
  induction gaps with
  | nil => exact fun ha => ha
  | cons g _ ih =>
    intro h h' ha
    refine ih ?_
    simp only [fillGap]
    split
    · exact ha.mapFreshAnonymous _ _
    · exact ha

theorem commitRange_alike (ha : h.Alike h') (s : GuestAddressSpace) (b e : UInt64) (hp : HostProt) :
    (commitRange h' b e s.pageSize hp s.committed).1 =
        (commitRange h b e s.pageSize hp s.committed).1 ∧
      (commitRange h b e s.pageSize hp s.committed).2.Alike
        (commitRange h' b e s.pageSize hp s.committed).2 := by
  exact (foldl_fillGap_alike s _ ha).mprotect _ _ _

theorem commitTaken_alike (ha : h.Alike h') (free : List Extent) (a n : UInt64) (p : Prot) :
    (s.commitTaken h' free a n p).ret = (s.commitTaken h free a n p).ret := by
  have hok := (commitRange_alike ha { s with free } a (a + n) (toHostProtection p)).1
  simp only [commitTaken]
  rw [hok]
  split <;> rfl

theorem allocate_alike (ha : h.Alike h') (size hint : UInt64) (p : Prot) :
    (s.allocate h' size hint p).ret = (s.allocate h size hint p).ret := by
  simp only [allocate]
  split
  · rfl
  · split
    · exact commitTaken_alike ha _ _ _ _
    · split
      · exact commitTaken_alike ha _ _ _ _
      · rfl

theorem commitGaps_alike (p : Prot) (gaps : List (UInt64 × UInt64)) :
    ∀ {s : GuestAddressSpace} {h h' : Host}, h.Alike h' →
    (commitGaps p gaps s h').2 = (commitGaps p gaps s h).2 := by
  induction gaps with
  | nil => exact fun _ => rfl
  | cons g _ ih =>
    intro s h h' ha
    obtain ⟨hok, hnext⟩ := commitRange_alike ha
      { s with free := takeFreeSpan s.free g.1 g.2 } g.1 g.2 (toHostProtection p)
    simp only [commitGaps]
    rw [hok]
    split
    · exact ih hnext
    · exact ih hnext

theorem protectLocked_ret (s : GuestAddressSpace) (h h' : Host) (a n : UInt64) (p : Prot) :
    (s.protectLocked h' a n p).ret = (s.protectLocked h a n p).ret := by
  simp only [protectLocked]
  split
  · split <;> rfl
  · rfl

theorem commitFixed_alike (ha : h.Alike h') (a n : UInt64) (p : Prot) :
    (s.commitFixed h' a n p).ret = (s.commitFixed h a n p).ret := by
  simp only [commitFixed]
  split
  · rfl
  · split
    · rfl
    · split
      · rw [commitGaps_alike p _ ha]
        exact protectLocked_ret _ _ _ _ _ _
      · rw [(commitRange_alike ha { s with free := _ } _ _ _).1]
        split <;> rfl

end GuestAddressSpace

end Fathom
