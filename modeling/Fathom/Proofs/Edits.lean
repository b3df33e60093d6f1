import Fathom.Proofs.MapPairs

/-!
# What a call does to an arena

A call is a few edits of the arena's record, each of one of four kinds: the free list is
replaced, a span is recorded, the observer is told, or the committed list is cut up and
takes in no byte.
-/

namespace Fathom

open Lib Spanned

namespace GuestAddressSpace

variable (l : List GuestRange) {s : GuestAddressSpace} {k : Nat}

structure Thins (l l' : List GuestRange) : Prop where
  fits : Fits l → Fits l'
  held : Fits l → ∀ y t, Holds l' y t → ∃ t', Holds l y t' ∧ t'.epoch = t.epoch

theorem thins_retag (a n : UInt64) : Thins l (l.map fun range =>
      if range.begin = a ∧ range.size = n then { range with written := false } else range) := by
  have hb : ∀ r : GuestRange, Spanned.begin (if r.begin = a ∧ r.size = n
      then { r with written := false } else r) = Spanned.begin r := by
    intro r
    split <;> rfl
  have hz : ∀ r : GuestRange, Spanned.size (if r.begin = a ∧ r.size = n
      then { r with written := false } else r) = Spanned.size r := by
    intro r
    split <;> rfl
  refine ⟨fun hl q hq => ?_, fun _ y t ht => ?_⟩
  · obtain ⟨r, hr, rfl⟩ := List.mem_map.mp hq
    rw [hi_map hb hz]
    exact hl r hr
  · obtain ⟨r, hr, hry, rfl⟩ := (holds_map hb hz).mp ht
    refine ⟨tag r, ⟨r, hr, hry, rfl⟩, ?_⟩
    split <;> rfl

theorem thins_reprotect {b e : UInt64} (sb se : UInt64) (p : Prot) (hbe : b.toNat ≤ e.toNat) :
    Thins l (reprotect l b e sb se p) := by
  refine ⟨fun hl => fits_reprotect hl hbe, fun hl y t ht => ?_⟩
  rcases (holds_reprotect hl hbe).mp ht with ⟨hold, _⟩ | ⟨r, hr, hry, _, rfl⟩
  · exact ⟨t, hold, rfl⟩
  · exact ⟨tag r, ⟨r, hr, hry, rfl⟩, rfl⟩

theorem thins_drop (b e : UInt64) : Thins l (coalesce (l.flatMap (cut b e fun _ => []))) := by
  have hcut : Fits l → Fits (l.flatMap (cut b e fun _ => [])) :=
    fun hl => hl.flatMap_cut fun _ _ _ _ hnil => absurd hnil (by simp)
  refine ⟨fun hl => (hcut hl).join, fun hl y t ht => ⟨t, ?_, rfl⟩⟩
  rcases hl.holds_flatMap_cut.mp ((hcut hl).holds_join.mp ht) with h | ⟨r, _, _, hnil⟩
  · exact h.1
  · exact absurd hnil (not_holds_nil y t)

inductive Edits (s : GuestAddressSpace) : Nat → GuestAddressSpace → Prop
  | refl : Edits s 0 s
  | free {k s'} {free : List Extent} : Edits s k s' →
      Within s'.base.toNat s'.limit free → Edits s k { s' with free }
  | notify {k s'} (b e : UInt64) : Edits s k s' → Edits s k (s'.notify b e)
  | record {k s'} {a n : UInt64} (p : Prot) : Edits s k s' → s'.base.toNat ≤ a.toNat →
      a.toNat + n.toNat ≤ s'.limit → Edits s (k + 1) (s'.recordCommitted a n p)
  | thin {k s'} {committed : List GuestRange} : Edits s k s' →
      Thins s'.committed committed → Edits s k { s' with committed }

theorem Edits.trans {s₁ s₂ : GuestAddressSpace} {j : Nat} (h₁ : s.Edits k s₁)
    (h₂ : s₁.Edits j s₂) : s.Edits (k + j) s₂ := by
  induction h₂ with
  | refl => exact h₁
  | free _ hfree ih => exact ih.free hfree
  | notify b e _ ih => exact ih.notify b e
  | record p _ ha hn ih => exact ih.record p ha hn
  | thin _ hthin ih => exact ih.thin hthin

theorem Edits.geometry {s' : GuestAddressSpace} (h : s.Edits k s') :
    s'.toGeometry = s.toGeometry := by
  induction h with
  | refl => rfl
  | notify b e _ ih => exact (notify_fields _ _ _).1.trans ih
  | record p _ _ _ ih => exact (recordCommitted_geometry _ _ _ _).trans ih
  | free _ _ ih | thin _ _ ih => exact ih

theorem Edits.bounded {s' : GuestAddressSpace} (h : s.Edits k s')
    (hs : s.Bounded s.base.toNat) : s'.Bounded s'.base.toNat := by
  induction h with
  | refl => exact hs
  | free _ hfree _ => exact hfree
  | @notify _ s' b e _ ih =>
    obtain ⟨hgeo, hfree, _⟩ := s'.notify_fields b e
    rw [hgeo]
    exact ih.congr hgeo hfree
  | @record _ s' a n p _ _ _ ih =>
    have hgeo := s'.recordCommitted_geometry a n p
    rw [hgeo]
    exact ih.congr hgeo (s'.recordCommitted_free a n p)
  | thin _ _ ih => exact ih

/-! ## The calls -/

variable {a n : UInt64}

section

variable (s : GuestAddressSpace) (h : Host) (p : Prot) (hfit : a.toNat + n.toNat + s.page ≤ 2 ^ 64)
include hfit

theorem protectLocked_edits : s.Edits 0 (s.protectLocked h a n p).space := by
  obtain ⟨-, hdown, hup⟩ := toNat_rounded hfit
  have h₁ := roundDown_le s.page a.toNat
  have h₂ := le_roundUp s.page_pos (a.toNat + n.toNat)
  have hbe : (s.alignDown a).toNat ≤ (s.alignUp (a + n)).toNat := by omega
  have hre := (Edits.refl).thin
    (thins_reprotect s.committed (s.alignUp a) (s.alignDown (a + n)) p hbe)
  unfold protectLocked
  dsimp only
  split
  · split <;> exact hre
  · exact .refl

theorem protect_edits : s.Edits 0 (s.protect h a n p).space := by
  have hlocked := s.protectLocked_edits h p hfit
  unfold protect
  dsimp only
  split
  · exact hlocked.notify _ _
  · exact hlocked

end

theorem release_edits (hs : s.Bounded s.base.toNat) (h : Host) (a n : UInt64) :
    s.Edits 0 (s.release h a n).space := by
  unfold release
  split
  · exact .refl
  · dsimp only
    generalize maskDown kGuestPage a = b
    generalize maskUp kGuestPage (a + n) = e
    split
    · exact .refl
    next hin =>
      rw [gt_iff_lt, UInt64.lt_iff_toNat_lt, UInt64.lt_iff_toNat_lt, s.toNat_limit] at hin
      have hdrop := (Edits.refl).thin (thins_drop s.committed b e)
      have hroom := s.limit_add_page
      have hup := toNat_alignUp (s := s) (v := e) (by omega)
      have hend := (roundUp_le_iff s.page_pos s.page_dvd_limit (n := e.toNat)).mpr (by omega)
      have hbase := (le_roundDown_iff s.page_pos s.base_aligned (n := b.toNat)).mpr (by omega)
      rw [← s.toNat_alignDown] at hbase
      have hgaps : ∀ l : List GuestRange, ∀ g ∈ uncommittedIn l (s.alignDown b) (s.alignUp e),
          s.base.toNat ≤ g.1.toNat ∧ g.1.toNat < g.2.toNat ∧ g.2.toNat ≤ s.limit := by
        intro l g hg
        obtain ⟨h1, h2, h3⟩ := uncommittedFrom_within hbase g hg
        exact ⟨h1, h2, h3.trans (by rw [hup]; exact hend)⟩
      have hfree := hdrop.free
        (freeGaps_bounded hs (hgaps (coalesce (s.committed.flatMap (cut b e fun _ => [])))))
      split
      · exact hfree.notify _ _
      · exact hfree

theorem commitTaken_edits (h : Host) {free : List Extent} (p : Prot)
    (hfree : Within s.base.toNat s.limit free) (ha : s.base.toNat ≤ a.toNat)
    (hn : a.toNat + n.toNat ≤ s.limit) :
    let out := s.commitTaken h free a n p
    s.Edits (if out.ret = 0 then 0 else 1) out.space := by
  have hbase := s.base_pos
  have hne : a ≠ 0 := ne_zero_of_toNat_pos (by omega)
  have htaken := (Edits.refl).free hfree
  unfold commitTaken
  dsimp only
  split
  · have hrec := htaken.record p ha hn
    split
    · exact hrec.notify _ _
    · exact hrec
  · exact Edits.refl.free (hfree.returnFreeExtent s.limit_lt ha hn)

def commitsOfGaps (protection : Prot) : List (UInt64 × UInt64) → GuestAddressSpace → Host → Nat
  | [], _, _ => 0
  | (gapBegin, gapEnd) :: rest, s, h =>
    let s := { s with free := takeFreeSpan s.free gapBegin gapEnd }
    let (ok, h) := commitRange h gapBegin gapEnd s.pageSize
      (toHostProtection protection) s.committed
    if ok
    then commitsOfGaps protection rest
      (s.recordCommitted gapBegin (gapEnd - gapBegin) protection) h + 1
    else commitsOfGaps protection rest s h

theorem commitGaps_edits {p : Prot} {gaps : List (UInt64 × UInt64)} :
    ∀ {s : GuestAddressSpace} {h : Host}, s.Bounded s.base.toNat →
    (∀ g ∈ gaps, s.base.toNat ≤ g.1.toNat ∧ g.1.toNat < g.2.toNat ∧ g.2.toNat ≤ s.limit) →
    s.Edits (commitsOfGaps p gaps s h) (commitGaps p gaps s h).2 := by
  induction gaps with
  | nil =>
    intro s h _ _
    exact .refl
  | cons g _ ih =>
    intro s h hs hgaps
    obtain ⟨hlo, hlt, hhi⟩ := hgaps g (by simp)
    have hrest := fun g' hg' => hgaps g' (List.mem_cons_of_mem g hg')
    have hsub := toNat_sub_of_le hlt.le
    have hfree := Within.takeFreeSpan s.limit_lt hs g.1 g.2
    have hspan := (Edits.refl).free hfree
    rw [commitGaps, commitsOfGaps]
    dsimp only
    split
    · have hrec := hspan.record (n := g.2 - g.1) p hlo (by
        change _ ≤ s.limit
        omega)
      rw [Nat.add_comm]
      refine hrec.trans (ih (hrec.bounded hs) ?_)
      rw [hrec.geometry]
      exact hrest
    · rw [← Nat.zero_add (commitsOfGaps _ _ _ _)]
      exact hspan.trans (ih hfree hrest)

def Call.commits (m : Machine) : Call → Nat
  | .allocate size hint p => if (m.space.allocate m.host size hint p).ret = 0 then 0 else 1
  | .commitFixed address size p =>
    let begin := m.space.alignDown address
    let stop := m.space.alignUp (address + size)
    if size = 0 ∨ begin < m.space.base ∨ stop > m.space.base + m.space.size then 0
    else match takeFreeExtent m.space.free begin (stop - begin) with
      | none => commitsOfGaps p (uncommittedIn m.space.committed begin stop) m.space m.host
      | some _ =>
        if (commitRange m.host begin stop m.space.pageSize (toHostProtection p)
          m.space.committed).1 then 1 else 0
  | .adoptCopiedMapping address size p written =>
    if (m.space.adoptCopiedMapping address size p written).1 then 1 else 0
  | .protect .. | .release .. => 0

section

variable (hs : s.Bounded s.base.toNat)
include hs

theorem allocate_edits (h : Host) {size hint : UInt64} (p : Prot)
    (hc : (Call.allocate size hint p).Plain s.toGeometry) :
    s.Edits ((Call.allocate size hint p).commits ⟨s, h⟩) (s.allocate h size hint p).space := by
  obtain ⟨hsize, hhint⟩ := hc
  have hfit : hint ≠ 0 → (s.alignDown hint).toNat + (s.alignUp size).toNat < 2 ^ 64 := by
    intro _
    rw [toNat_alignDown, toNat_alignUp hsize]
    exact hhint
  unfold Call.commits
  dsimp only
  rcases allocate_cases hs h p hfit with heq | ⟨a, _, ⟨hfree, ha, hn⟩, heq⟩
  · rw [heq]
    exact .refl
  · rw [heq]
    exact commitTaken_edits h p hfree ha hn

theorem commitFixed_edits (h : Host) (p : Prot) (hc : (Call.commitFixed a n p).Plain s.toGeometry) :
    s.Edits ((Call.commitFixed a n p).commits ⟨s, h⟩) (s.commitFixed h a n p).space := by
  obtain ⟨ha, hn⟩ := hc
  by_cases h0 : n = 0
  · have hsame : s.commitFixed h a n p = ⟨false, h, s⟩ := if_pos h0
    have hnone : (Call.commitFixed a n p).commits ⟨s, h⟩ = 0 := if_pos (.inl h0)
    rw [hsame, hnone]
    exact .refl
  have hpos : 0 < n.toNat := toNat_pos h0
  have hspan := fixedSpan hpos ha hn
  have hlt := hspan.pos
  have hend := hspan.limit
  have hbase := hspan.base
  have hroom := s.limit_add_page
  have hin : ¬ (s.alignDown a < s.base ∨ s.alignUp (a + n) > s.base + s.size) := by
    rw [gt_iff_lt, UInt64.lt_iff_toNat_lt, UInt64.lt_iff_toNat_lt, s.toNat_limit]
    omega
  unfold Call.commits
  dsimp only
  rw [if_neg (not_or.mpr ⟨h0, hin⟩)]
  unfold commitFixed
  rw [if_neg h0]
  rw [if_neg hin]
  generalize s.alignDown a = b at *
  generalize s.alignUp (a + n) = e at *
  obtain ⟨hadd, -⟩ := sub_span hlt
  cases htake : takeFreeExtent s.free b (e - b) with
  | none =>
    have hgaps : ∀ g ∈ uncommittedIn s.committed b e, s.base.toNat ≤ g.1.toNat ∧
        g.1.toNat < g.2.toNat ∧ g.2.toNat ≤ s.limit := by
      intro g hg
      obtain ⟨h1, h2, h3⟩ := uncommittedFrom_within hbase g hg
      exact ⟨h1, h2, h3.trans hend⟩
    have hfill := commitGaps_edits (p := p) (h := h) hs hgaps
    have hpage := congrArg Geometry.page hfill.geometry
    refine hfill.trans (protectLocked_edits _ _ p ?_)
    omega
  | some _ =>
    dsimp only
    have hlimit := s.limit_lt
    obtain ⟨hfree, hlo, hhi⟩ := Within.takeFreeExtent hlimit (by omega) hs htake
    have htaken := (Edits.refl).free hfree
    split
    · have hrec := htaken.record p hlo hhi
      split
      · exact hrec.notify _ _
      · exact hrec
    · exact Edits.refl.free (hfree.returnFreeExtent hlimit hlo hhi)

theorem adoptCopiedMapping_edits (h : Host) (p : Prot) (written : Bool)
    (hn : a.toNat + n.toNat ≤ s.limit) :
    s.Edits ((Call.adoptCopiedMapping a n p written).commits ⟨s, h⟩)
      (s.adoptCopiedMapping a n p written).2 := by
  have hlimit := s.limit_lt
  unfold Call.commits adoptCopiedMapping
  dsimp only
  split
  · exact .refl
  · cases htake : takeFreeExtent s.free a n with
    | none => exact .refl
    | some _ =>
      obtain ⟨hfree, hlo, hhi⟩ := Within.takeFreeExtent hlimit (by omega) hs htake
      have hrec := ((Edits.refl).free hfree).record p hlo hhi
      cases written with
      | true => exact hrec
      | false => exact hrec.thin (thins_retag _ a n)

end

theorem Call.run_edits {m : Machine} (hs : m.space.Bounded m.space.base.toNat) {c : Call}
    (hc : c.Plain m.space.toGeometry) : m.space.Edits (c.commits m) (c.run m).space := by
  have hroom := m.space.limit_add_page
  cases c with
  | allocate _ _ p => exact allocate_edits hs m.host p hc
  | commitFixed a n p => exact commitFixed_edits hs m.host p hc
  | adoptCopiedMapping a n p written => exact adoptCopiedMapping_edits hs m.host p written hc.2
  | protect a n p =>
    refine m.space.protect_edits m.host p ?_
    have := hc.2
    omega
  | release a n => exact release_edits hs m.host a n

/-! ## What a release takes -/

def releasePages (s : GuestAddressSpace) (a n : UInt64) : Set Nat :=
  {y | n ≠ 0 ∧ s.base ≤ maskDown kGuestPage a ∧ maskUp kGuestPage (a + n) ≤ s.base + s.size ∧
    (maskDown kGuestPage a).toNat ≤ y ∧ y < (maskUp kGuestPage (a + n)).toNat}

theorem covers_release (hs : Fits s.committed) (h : Host) (a n : UInt64) (y : Nat) :
    Covers (s.release h a n).space.committed y ↔ Covers s.committed y ∧ y ∉ s.releasePages a n := by
  have hout : ∀ {P : Prop}, ¬ P → ∀ Q : Prop, (Q ↔ Q ∧ ¬ P) := fun hP Q => by simp [hP]
  simp only [release]
  split
  next hzero => exact hout (fun hy => hy.1 hzero) _
  next hne =>
    split
    next hrefused =>
      refine hout (fun hy => ?_) _
      rcases hrefused with hlow | hhigh
      · exact absurd hy.2.1 (UInt64.not_le.mpr hlow)
      · exact absurd hy.2.2.1 (UInt64.not_le.mpr hhigh)
    next hin =>
      rw [not_or, UInt64.not_lt, UInt64.not_lt] at hin
      have hcut : Fits (s.committed.flatMap
          (cut (maskDown kGuestPage a) (maskUp kGuestPage (a + n)) fun _ => [])) :=
        hs.flatMap_cut fun _ _ _ _ hnil => absurd hnil (by simp)
      have hdropped : Covers (coalesce (s.committed.flatMap
          (cut (maskDown kGuestPage a) (maskUp kGuestPage (a + n)) fun _ => []))) y ↔
          Covers s.committed y ∧ y ∉ s.releasePages a n := by
        simp only [coalesce, covers_iff_holds, hcut.holds_join, hs.holds_flatMap_cut]
        have hpages : y ∈ s.releasePages a n ↔ (maskDown kGuestPage a).toNat ≤ y ∧
            y < (maskUp kGuestPage (a + n)).toNat :=
          ⟨fun hy => hy.2.2.2, fun hy => ⟨hne, hin.1, hin.2, hy⟩⟩
        rw [hpages]
        constructor
        · rintro ⟨t, ⟨ht, hy⟩ | ⟨r, -, -, hnil⟩⟩
          · exact ⟨⟨t, ht⟩, hy⟩
          · exact absurd hnil (not_holds_nil y t)
        · rintro ⟨⟨t, ht⟩, hy⟩
          exact ⟨t, .inl ⟨ht, hy⟩⟩
      split
      · rw [(notify_fields _ _ _).2.2.1]
        exact hdropped
      · exact hdropped

theorem fits_release (hs : Fits s.committed) (h : Host) (a n : UInt64) :
    Fits (s.release h a n).space.committed ∧ (s.release h a n).space.toGeometry = s.toGeometry := by
  simp only [release]
  split
  · exact ⟨hs, rfl⟩
  · split
    · exact ⟨hs, rfl⟩
    · have hdropped := (thins_drop s.committed (maskDown kGuestPage a)
        (maskUp kGuestPage (a + n))).fits hs
      split
      · rw [(notify_fields _ _ _).2.2.1, (notify_fields _ _ _).1]
        exact ⟨hdropped, rfl⟩
      · exact ⟨hdropped, rfl⟩

/-! ## Epochs -/

variable {s : GuestAddressSpace} {k : Nat}

def HeldSince (s : GuestAddressSpace) (y : Nat) (epoch : UInt64) : Prop :=
  ∃ t : Attr, Holds s.committed y t ∧ t.epoch = epoch

/-- The numbers given out so far are those up to `k`. -/
structure Tallied (s : GuestAddressSpace) (k : Nat) : Prop where
  fits : Fits s.committed
  bounded : s.Bounded s.base.toNat
  next : s.nextEpoch = UInt64.ofNat (k + 1)
  issued : ∀ y epoch, s.HeldSince y epoch → epoch.toNat ≤ k

structure Follows (s : GuestAddressSpace) (k : Nat) (s' : GuestAddressSpace) (k' : Nat) : Prop where
  tallied : s'.Tallied k'
  geometry : s'.toGeometry = s.toGeometry
  more : k ≤ k'
  since : ∀ y epoch, s'.HeldSince y epoch → epoch.toNat ≤ k → s.HeldSince y epoch

theorem Tallied.refl (hs : s.Tallied k) : s.Follows k s k := ⟨hs, rfl, le_rfl, fun _ _ h _ => h⟩

theorem Follows.trans {s₁ s₂ : GuestAddressSpace} {k₁ k₂ : Nat} (h₁ : s.Follows k s₁ k₁)
    (h₂ : s₁.Follows k₁ s₂ k₂) : s.Follows k s₂ k₂ :=
  ⟨h₂.tallied, h₂.geometry.trans h₁.geometry, h₁.more.trans h₂.more,
    fun y epoch h hold => h₁.since y epoch (h₂.since y epoch h (hold.trans h₁.more)) hold⟩

theorem tallied_new (g : Geometry) : (new g).Tallied 0 := by
  refine ⟨fun r hr => (nomatch hr), (bounded_new g).mono (Nat.le_add_right _ _), rfl,
    fun y epoch h => ?_⟩
  obtain ⟨t, ht, _⟩ := h
  exact absurd ht (not_holds_nil y t)

/-! ## What makes no commit -/

variable {s' : GuestAddressSpace}

theorem Tallied.keep (hs : s.Tallied k) (hfits : Fits s'.committed)
    (hbounded : s'.Bounded s.base.toNat) (hgeo : s'.toGeometry = s.toGeometry)
    (hnext : s'.nextEpoch = s.nextEpoch)
    (hback : ∀ y t, Holds s'.committed y t → s.HeldSince y t.epoch) : s.Follows k s' k := by
  have hheld : ∀ y epoch, s'.HeldSince y epoch → s.HeldSince y epoch := by
    rintro y _ ⟨t, ht, rfl⟩
    exact hback y t ht
  refine ⟨⟨hfits, ?_, hnext.trans hs.next, fun y epoch h => hs.issued y epoch (hheld y epoch h)⟩,
    hgeo, le_rfl, fun y epoch h _ => hheld y epoch h⟩
  rw [hgeo]
  exact hbounded

theorem Tallied.same (hs : s.Tallied k) (hcommitted : s'.committed = s.committed)
    (hbounded : s'.Bounded s.base.toNat) (hgeo : s'.toGeometry = s.toGeometry)
    (hnext : s'.nextEpoch = s.nextEpoch) : s.Follows k s' k := by
  refine hs.keep ?_ hbounded hgeo hnext fun y t ht => ⟨t, ?_, rfl⟩
  · rw [hcommitted]
    exact hs.fits
  · rw [← hcommitted]
    exact ht

theorem Tallied.notify (hs : s.Tallied k) (b e : UInt64) : s.Follows k (s.notify b e) k := by
  obtain ⟨hgeo, hfree, hcommitted, hnext⟩ := s.notify_fields b e
  exact hs.same hcommitted (hs.bounded.congr hgeo hfree) hgeo hnext

theorem Follows.notify {k' : Nat} (h : s.Follows k s' k') (b e : UInt64) :
    s.Follows k (s'.notify b e) k' :=
  h.trans (h.tallied.notify b e)

theorem Tallied.withFree (hs : s.Tallied k) {free : List Extent}
    (hfree : Within s.base.toNat s.limit free) : s.Follows k { s with free } k :=
  hs.same rfl hfree rfl rfl

theorem Tallied.thin (hs : s.Tallied k) {committed : List GuestRange}
    (hthin : Thins s.committed committed) : s.Follows k { s with committed } k := by
  refine hs.keep (hthin.fits hs.fits) hs.bounded rfl rfl fun y t ht => ?_
  obtain ⟨t', ht', hepoch⟩ := hthin.held hs.fits y t ht
  exact ⟨t', ht', hepoch⟩

/-! ## What does -/

theorem Tallied.record (hs : s.Tallied k) (hk : k + 1 < 2 ^ 64) {a n : UInt64}
    (hfit : a.toNat + n.toNat < 2 ^ 64) (p : Prot) :
    s.Follows k (s.recordCommitted a n p) (k + 1) := by
  have hgeo := s.recordCommitted_geometry a n p
  have hfree := s.recordCommitted_free a n p
  have hhi : hi (s.newRange a n p) < 2 ^ 64 := hfit
  have hnumber : s.nextEpoch.toNat = k + 1 := by
    rw [hs.next, UInt64.toNat_ofNat']
    omega
  have hheld : ∀ y epoch, (s.recordCommitted a n p).HeldSince y epoch →
      s.HeldSince y epoch ∨ epoch = s.nextEpoch := by
    rintro y _ ⟨t, ht, rfl⟩
    rw [recordCommitted_committed, hs.fits.holds_overwrite hhi] at ht
    rcases ht with ⟨hold, _⟩ | ⟨_, rfl⟩
    · exact .inl ⟨t, hold, rfl⟩
    · exact .inr rfl
  refine ⟨⟨?_, ?_, ?_, fun y epoch h => ?_⟩, hgeo, Nat.le_succ k, fun y epoch h hold => ?_⟩
  · rw [recordCommitted_committed]
    exact hs.fits.overwrite hhi
  · rw [hgeo]
    exact hs.bounded.congr hgeo hfree
  · change (s.markCommitted a n).nextEpoch + 1 = _
    rw [(s.markCommitted_fields a n).2.2.2, hs.next]
    exact (UInt64.ofNat_add (k + 1) 1).symm
  · rcases hheld y epoch h with h | rfl
    · exact Nat.le_succ_of_le (hs.issued y epoch h)
    · exact Nat.le_of_eq hnumber
  · refine (hheld y epoch h).resolve_right fun heq => ?_
    rw [heq] at hold
    omega

theorem Tallied.edits (hs : s.Tallied k) {j : Nat} (h : s.Edits j s') (hk : k + j < 2 ^ 64) :
    s.Follows k s' (k + j) := by
  induction h with
  | refl => exact hs.refl
  | free _ hfree ih => exact (ih hk).trans ((ih hk).tallied.withFree hfree)
  | notify b e _ ih => exact (ih hk).notify b e
  | @record j s₁ a n p _ _ hn ih =>
    have hprev := ih (by omega)
    have hlimit := s₁.limit_lt
    exact hprev.trans (hprev.tallied.record hk (by omega) p)
  | thin _ hthin ih => exact (ih hk).trans ((ih hk).tallied.thin hthin)

/-! ## Runs -/

def CountedStep (g : Geometry) (m m' : Machine × Nat) : Prop :=
  ∃ c : Call, c.Plain g ∧ m' = (c.run m.1, m.2 + c.commits m.1)

def Runs (g : Geometry) : Machine × Nat → Machine × Nat → Prop :=
  Relation.ReflTransGen (CountedStep g)

theorem Runs.more {g : Geometry} {p q : Machine × Nat} (hr : Runs g p q) : p.2 ≤ q.2 := by
  induction hr with
  | refl => exact le_rfl
  | tail _ hstep ih =>
    obtain ⟨c, _, rfl⟩ := hstep
    exact ih.trans (Nat.le_add_right _ _)

theorem Runs.follows {g : Geometry} {p q : Machine × Nat} (hr : Runs g p q)
    (hp : p.1.space.Tallied p.2) (hgeo : p.1.space.toGeometry = g) (hk : q.2 < 2 ^ 64) :
    p.1.space.Follows p.2 q.1.space q.2 := by
  induction hr with
  | refl => exact hp.refl
  | tail _ hstep ih =>
    obtain ⟨c, hc, rfl⟩ := hstep
    have hprev := ih (Nat.lt_of_le_of_lt (Nat.le_add_right _ _) hk)
    have hedits := Call.run_edits hprev.tallied.bounded (by rw [hprev.geometry, hgeo]; exact hc)
    exact hprev.trans (hprev.tallied.edits hedits hk)

/-! ## Putting bytes back -/

theorem restoreFrom_has {epoch stop : UInt64} {l : List GuestRange} (hl : Fits l) :
    ∀ {cursor : UInt64}, restoreFrom epoch stop cursor l = .ok () →
    ∀ y, cursor.toNat ≤ y → y < stop.toNat → ∃ r ∈ l, Has r y ∧ r.epoch = epoch := by
  induction l with
  | nil =>
    intro cursor h
    cases h
  | cons r rest ih =>
    intro cursor h y hy hstop
    have hend := stop_toNat (hl r (by simp))
    rw [restoreFrom] at h
    split at h
    · cases h
    next hbegin =>
      rw [gt_iff_lt, UInt64.lt_iff_toNat_lt] at hbegin
      split at h
      · cases h
      next hepoch =>
        have hthis : y < hi r → ∃ r' ∈ r :: rest, Has r' y ∧ r'.epoch = epoch := by
          intro hlt
          refine ⟨r, by simp, ⟨?_, hlt⟩, not_not.mp hepoch⟩
          change r.begin.toNat ≤ y
          omega
        split at h
        · cases h
        · split at h
          next hdone =>
            rw [ge_iff_le, UInt64.le_iff_toNat_le] at hdone
            exact hthis (by omega)
          · by_cases hlt : y < hi r
            · exact hthis hlt
            · obtain ⟨r', hr', hhas⟩ := ih (fun r' hr' => hl r' (by simp [hr'])) h y
                (by omega) hstop
              exact ⟨r', by simp [hr'], hhas⟩

theorem restoreIfUnchanged_spec (hfits : Fits s.committed) (h : Host) {a n : UInt64}
    (hfit : a.toNat + n.toNat < 2 ^ 64) (bytes : Nat → UInt8) (epoch : UInt64) :
    (∀ held, (s.restoreIfUnchanged h a bytes n epoch).1 = .ok held →
      (∀ y, a.toNat ≤ y → y < a.toNat + n.toNat → s.HeldSince y epoch) ∧
      ∀ y, (s.restoreIfUnchanged h a bytes n epoch).2.mem y =
        if a.toNat ≤ y ∧ y < a.toNat + n.toNat then bytes (y - a.toNat) else h.mem y) ∧
    (∀ refusal, (s.restoreIfUnchanged h a bytes n epoch).1 = .error refusal →
      (s.restoreIfUnchanged h a bytes n epoch).2.mem = h.mem) := by
  have hsum := toNat_add_of_lt hfit
  unfold restoreIfUnchanged
  dsimp only
  cases hwalk : restoreFrom epoch (a + n) a
      (s.committed.drop (firstRangeEndingAfter s.committed a)) with
  | error _ => exact ⟨fun _ hok => (nomatch hok), fun _ _ => rfl⟩
  | ok u =>
    have hmem := Host.mprotect_mem h (s.alignDown a) (s.alignUp (a + n) - s.alignDown a)
      protReadWrite
    dsimp only
    generalize h.mprotect (s.alignDown a) (s.alignUp (a + n) - s.alignDown a) protReadWrite =
      out at hmem ⊢
    split
    · refine ⟨fun held _ => ⟨fun y h1 h2 => ?_, fun y => ?_⟩, fun _ herr => (nomatch herr)⟩
      · obtain ⟨r, hr, hhas, hepoch⟩ := restoreFrom_has
          (fun r hr => hfits r (List.mem_of_mem_drop hr)) hwalk y h1 (by omega)
        exact ⟨tag r, ⟨r, List.mem_of_mem_drop hr, hhas, rfl⟩, hepoch⟩
      · change (if Host.inSpan a n y then _ else out.2.mem y) = _
        rw [hmem]
        refine if_congr ?_ rfl rfl
        exact Host.inSpan_iff
    · exact ⟨fun _ hok => (nomatch hok), fun _ _ => hmem⟩

/-- The epoch of a range that had `[a, a + n)`, presented again later: the bytes
are written only if every one of them has been committed all the time since, then
they and no others are, and a refusal writes nothing. -/
theorem restored_only_if_kept {g : Geometry} {h : Host} {p q : Machine × Nat}
    (hp : Runs g (⟨new g, h⟩, 0) p) (hq : Runs g p q) (hcount : q.2 < 2 ^ 64)
    {r : GuestRange} (hr : r ∈ p.1.space.committed) {a n : UInt64} (hn : 0 < n.toNat)
    (hlo : lo r ≤ a.toNat) (hhi : a.toNat + n.toNat ≤ hi r) (bytes : Nat → UInt8) :
    let out := q.1.space.restoreIfUnchanged q.1.host a bytes n r.epoch
    (∀ held, out.1 = .ok held →
      (∀ m, Runs g p m → Runs g m q → ∀ y, a.toNat ≤ y → y < a.toNat + n.toNat →
        Covers m.1.space.committed y) ∧
      ∀ y, out.2.mem y =
        if a.toNat ≤ y ∧ y < a.toNat + n.toNat then bytes (y - a.toNat) else q.1.host.mem y) ∧
    (∀ refusal, out.1 = .error refusal → out.2.mem = q.1.host.mem) := by
  have hfirst := hp.follows (tallied_new g) rfl (hq.more.trans_lt hcount)
  have hlast := hq.follows hfirst.tallied hfirst.geometry hcount
  have hword := hfirst.tallied.fits r hr
  have hissued : r.epoch.toNat ≤ p.2 :=
    hfirst.tallied.issued a.toNat r.epoch ⟨tag r, ⟨r, hr, ⟨hlo, by omega⟩, rfl⟩, rfl⟩
  obtain ⟨hok, hrefused⟩ := restoreIfUnchanged_spec hlast.tallied.fits q.1.host
    (hhi.trans_lt hword) bytes r.epoch
  refine ⟨fun held hret => ?_, hrefused⟩
  obtain ⟨hheld, hmem⟩ := hok held hret
  refine ⟨fun m hpm hmq y h1 h2 => ?_, hmem⟩
  -- From the end back to `m`: the epoch was out by then.
  have hmid := hpm.follows hfirst.tallied hfirst.geometry (hmq.more.trans_lt hcount)
  have hrest := hmq.follows hmid.tallied (hmid.geometry.trans hfirst.geometry) hcount
  obtain ⟨t, ht, _⟩ := hrest.since y r.epoch (hheld y h1 h2) (hissued.trans hmid.more)
  exact covers_iff_holds.mpr ⟨t, ht⟩

def firstPage : Machine × Nat :=
  ((Call.allocate 0x4000 0 3).run ⟨new Geometry.oneMegabyte, Host.fresh⟩, 1)

def secondPage : Machine × Nat := ((Call.allocate 0x4000 0 3).run firstPage.1, 2)

theorem restored_only_if_kept_firstPage :
    Runs Geometry.oneMegabyte (⟨new Geometry.oneMegabyte, Host.fresh⟩, 0) firstPage ∧
    Runs Geometry.oneMegabyte firstPage secondPage ∧
    (secondPage.1.space.restoreIfUnchanged secondPage.1.host 0x100010000 (fun _ => 9) 16 1).2.mem
      0x10001000F = 9 ∧ Covers firstPage.1.space.committed 0x10001000F := by
  have hp : Runs Geometry.oneMegabyte (⟨new Geometry.oneMegabyte, Host.fresh⟩, 0) firstPage :=
    .single ⟨.allocate 0x4000 0 3, ⟨by decide, by decide⟩, by rfl⟩
  have hq : Runs Geometry.oneMegabyte firstPage secondPage :=
    .single ⟨.allocate 0x4000 0 3, ⟨by decide, by decide⟩, by rfl⟩
  obtain ⟨hok, _⟩ := restored_only_if_kept hp hq (by decide) (r := ⟨0x100010000, 0x4000, 3, 1,
    true⟩) (by decide) (a := 0x100010000) (n := 16) (by decide) (by decide) (by decide) fun _ => 9
  obtain ⟨hkept, hmem⟩ := hok false (by rfl)
  exact ⟨hp, hq, hmem 0x10001000F, hkept firstPage .refl hq 0x10001000F (by decide) (by decide)⟩

end GuestAddressSpace

end Fathom
