import Fathom.Proofs.Runs

/-!
# Where the arithmetic wraps

The arena's methods add a guest's address and length as machine words and round the sum
up, and only `Validate` asks first whether that wraps.
-/

namespace Fathom

open Lib Spanned Host

namespace GuestAddressSpace

variable {g : Geometry}

structure InArena (g : Geometry) (s : GuestAddressSpace) : Prop where
  geometry : s.toGeometry = g
  inv : s.ListInv
  edges : Edges (fun x => g.base.toNat ≤ x ∧ x ≤ g.limit) s.committed

def Untouched (s s' : GuestAddressSpace) : Prop := s'.free = s.free ∧ s'.committed = s.committed

/-! ## Contains -/

def ContainsSound (g : Geometry) (a n : UInt64) : Prop :=
  ∀ s : GuestAddressSpace, s.toGeometry = g →
  (s.contains a n = true ↔ g.base.toNat ≤ a.toNat ∧ a.toNat + n.toNat ≤ g.limit)

theorem containsSound_iff (a n : UInt64) :
    ContainsSound g a n ↔ (a.toNat + n.toNat < 2 ^ 64 ∨ a < g.base ∨ n > g.size) := by
  have hfits := g.fits
  have ha := toNat_lt_word a
  have hlim : g.limit = g.base.toNat + g.size.toNat := rfl
  have hiff : ∀ s : GuestAddressSpace, s.toGeometry = g → (s.contains a n = true ↔
      g.base.toNat ≤ a.toNat ∧ n.toNat ≤ g.size.toNat ∧
        (a.toNat + n.toNat) % 2 ^ 64 ≤ g.limit) := by
    rintro s rfl
    unfold contains
    simp [UInt64.le_iff_toNat_le, s.toNat_limit, and_assoc]
  rw [UInt64.lt_iff_toNat_lt, gt_iff_lt, UInt64.lt_iff_toNat_lt]
  constructor
  · intro hsound
    have h := (hiff (new g) rfl).symm.trans (hsound (new g) rfl)
    by_contra hcon
    omega
  · intro hcond s hs
    rw [hiff s hs]
    omega

/-! ## An arena all free -/

def allFree (g : Geometry) : GuestAddressSpace := { new g with free := [⟨g.base, g.size⟩] }

theorem inArena_allFree (g : Geometry) : InArena g (allFree g) := by
  have hle : g.base.toNat ≤ g.limit := Nat.le_add_right _ _
  refine ⟨rfl, ⟨?_, ?_, wf_nil, fun _ h => absurd h (by simp [allFree, new]),
    fun _ _ => rfl⟩, fun _ h => absurd h (by simp [allFree, new])⟩
  · exact normal_cons.mpr ⟨proper_extent g.size_pos g.fits, by simp, normal_nil⟩
  · intro r hr
    rw [List.mem_singleton.mp hr]
    exact ⟨⟨g.base_aligned, le_rfl, hle⟩, ⟨g.page_dvd_limit, hle, le_rfl⟩⟩

variable {a n : UInt64}

theorem takeFreeExtent_allFree (hlo : g.base ≤ a) (hhi : a + n ≤ g.base + g.size) :
    ∃ free, takeFreeExtent (allFree g).free a n = some free := by
  have hskip : ¬ (a < g.base ∨ a + n > Spanned.stop (⟨g.base, g.size⟩ : Extent)) := by
    rw [not_or]
    exact ⟨UInt64.not_lt.mpr hlo, UInt64.not_lt.mpr hhi⟩
  change ∃ free, takeFreeExtent [⟨g.base, g.size⟩] a n = some free
  rw [takeFreeExtent]
  dsimp only
  rw [if_neg hskip]
  split
  · exact ⟨_, rfl⟩
  · split
    · exact ⟨_, rfl⟩
    · split <;> exact ⟨_, rfl⟩

variable {h : Host}

section

variable (s : GuestAddressSpace)

theorem succeeds_fillGap (hh : h.Succeeds) (gap : UInt64 × UInt64) :
    (s.fillGap h gap).Succeeds := by
  unfold fillGap
  split
  · exact (hh.mapFresh _ _).2
  · exact hh

theorem commitRange_ok (hh : h.Succeeds) (b e : UInt64) (hp : HostProt) :
    (commitRange h b e s.pageSize hp s.committed).1 = true := by
  have hfold : ∀ (gaps : List (UInt64 × UInt64)) (h : Host), h.Succeeds →
      (gaps.foldl s.fillGap h).Succeeds := by
    intro gaps
    induction gaps with
    | nil => exact fun _ hh => hh
    | cons gap _ ih => exact fun h hh => ih _ (succeeds_fillGap s hh gap)
  exact ((hfold _ h hh).mprotect _ _ _).1

theorem commitTaken_ret (hh : h.Succeeds) (free : List Extent) (a n : UInt64) (p : Prot) :
    (s.commitTaken h free a n p).ret = a := by
  unfold commitTaken
  dsimp only
  rw [if_pos (commitRange_ok s hh a (a + n) _)]

end

/-! ## Allocate -/

section

variable (g : Geometry) (size hint : UInt64)

/-- `Allocate` refuses, or takes a span of the rounded size that was free. -/
def AllocateSound (p : Prot) : Prop :=
  ∀ s h, InArena g s → h.Succeeds →
  let out := s.allocate h size hint p
  let L := roundUp g.page size.toNat
  out.space.ListInv ∧
  ((out.ret = 0 ∧ Untouched s out.space) ∨
    ((∀ x, out.ret.toNat ≤ x → x < out.ret.toNat + L → Covers s.free x) ∧
      out.space.layout = s.layout.place out.ret.toNat (out.ret.toNat + L) (s.newAttr p)))

def HintTried : Prop :=
  hint ≠ 0 ∧ maskDown g.pageSize hint ≥ g.base ∧
  maskDown g.pageSize hint + maskUp g.pageSize size ≤ g.base + g.size

def AllocateSafe : Prop :=
  size = 0 ∨ (size.toNat + g.page ≤ 2 ^ 64 ∧
    (HintTried g size hint → roundDown g.page hint.toNat + roundUp g.page size.toNat < 2 ^ 64))

end

theorem takeHint_zero (s : GuestAddressSpace) (length : UInt64) : s.takeHint 0 length = none := by
  unfold takeHint
  exact if_neg fun h => h.1 rfl

variable {s : GuestAddressSpace} {size hint : UInt64} {p : Prot}

theorem allocate_of_not_hintTried (hno : ¬ HintTried s.toGeometry size hint) :
    s.allocate h size hint p = s.allocate h size 0 p := by
  have hh : s.takeHint hint (s.alignUp size) = none := by exact if_neg hno
  unfold allocate
  dsimp only
  rw [takeHint_zero, hh]

theorem allocateSound_of_safe (p : Prot) (hsafe : AllocateSafe g size hint) :
    AllocateSound g size hint p := by
  rintro s h ⟨rfl, hs, _⟩ hh
  have main : ∀ hint', s.AllocFits size hint' →
      let out := s.allocate h size hint' p
      let L := roundUp s.page size.toNat
      out.space.ListInv ∧
        ((out.ret = 0 ∧ Untouched s out.space) ∨
          ((∀ x, out.ret.toNat ≤ x → x < out.ret.toNat + L → Covers s.free x) ∧
            out.space.layout =
              s.layout.place out.ret.toNat (out.ret.toNat + L) (s.newAttr p))) := by
    intro hint' hfit out L
    refine ⟨(allocate_spec hs h p hfit).1, ?_⟩
    unfold out L
    rcases hs.allocate_cases h p hfit with ⟨_, heq⟩ | ⟨a, n, hn, ht, heq, _⟩
    · rw [heq]
      exact .inl ⟨rfl, rfl, rfl⟩
    · obtain ⟨hret, hlay, _⟩ := commitTaken_host hs hh ht p
      rw [heq, hret, ← hn]
      exact .inr ⟨ht.free, hlay⟩
  rcases hsafe with rfl | ⟨hround, hhint⟩
  · exact ⟨hs, .inl ⟨rfl, rfl, rfl⟩⟩
  · rcases Nat.eq_zero_or_pos size.toNat with h0 | hpos
    · rw [UInt64.toNat_inj.mp (show size.toNat = (0 : UInt64).toNat from h0)]
      exact ⟨hs, .inl ⟨rfl, rfl, rfl⟩⟩
    · by_cases htried : HintTried s.toGeometry size hint
      · exact main hint ⟨hpos, hround, hhint htried⟩
      · rw [allocate_of_not_hintTried htried]
        refine main 0 ⟨hpos, hround, ?_⟩
        have hz : roundDown s.page (0 : UInt64).toNat = 0 := by simp [roundDown]
        have := roundUp_lt s.page_pos size.toNat
        omega

theorem allocate_allFree_ret (p : Prot) (hsize : size ≠ 0)
    (hbad : HintTried g size hint ∨ 2 ^ 64 < size.toNat + g.page) :
    ((allFree g).allocate fresh size hint p).ret ≠ 0 ∧ (HintTried g size hint →
        ((allFree g).allocate fresh size hint p).ret = maskDown g.pageSize hint) := by
  have hbase : ∀ a : UInt64, g.base ≤ a → a ≠ 0 := by
    rintro a ha rfl
    have := g.base_pos
    rw [UInt64.le_iff_toNat_le] at ha
    simp at ha
    omega
  by_cases htried : HintTried g size hint
  · obtain ⟨free, hfree⟩ := takeFreeExtent_allFree htried.2.1 htried.2.2
    have heq : (allFree g).allocate fresh size hint p =
        (allFree g).commitTaken fresh free (maskDown g.pageSize hint)
          (maskUp g.pageSize size) p := by
      have htake : (allFree g).takeHint hint (maskUp g.pageSize size) =
          some (maskDown g.pageSize hint, free) := by
        unfold takeHint
        rw [if_pos (show hint ≠ 0 ∧ (allFree g).alignDown hint ≥ (allFree g).base ∧
          (allFree g).alignDown hint + maskUp g.pageSize size ≤
            (allFree g).base + (allFree g).size from htried)]
        exact congrArg (Option.map fun free => (maskDown g.pageSize hint, free)) hfree
      unfold allocate
      rw [if_neg hsize]
      dsimp only
      rw [show (allFree g).alignUp size = maskUp g.pageSize size from rfl, htake]
    rw [heq, commitTaken_ret _ succeeds_fresh]
    exact ⟨hbase _ htried.2.1, fun _ => rfl⟩
  · refine ⟨?_, fun h => absurd h htried⟩
    -- The rounded size is zero, and the first extent has room for nothing.
    obtain ⟨k, _, _, hk⟩ := g.page_pow
    have hlen : maskUp g.pageSize size = 0 := maskUp_wraps hk (hbad.resolve_left htried)
    rw [allocate_of_not_hintTried (s := allFree g) htried]
    have hlim := g.toNat_limit
    have hlt : g.base.toNat < g.limit := Nat.lt_add_of_pos_right g.size_pos
    obtain ⟨free, hfree⟩ := takeFreeExtent_allFree (n := 0) (UInt64.le_refl _) (by
        rw [UInt64.le_iff_toNat_le, hlim, UInt64.add_zero]
        exact hlt.le)
    have hmax : wordMax g.base 0 = g.base := by
      unfold wordMax
      rw [if_neg (by simp)]
    have hfit : (allFree g).findFit 0 = some (g.base, free) := by
      have hroom : ¬ (g.base ≥ Spanned.stop (⟨g.base, g.size⟩ : Extent) ∨
          Spanned.stop (⟨g.base, g.size⟩ : Extent) - g.base < 0) := by
        rw [ge_iff_le, UInt64.le_iff_toNat_le, UInt64.lt_iff_toNat_lt]
        change ¬ ((g.base + g.size).toNat ≤ _ ∨ _ < 0)
        omega
      change firstFit (allFree g).free 0 0 [⟨g.base, g.size⟩] = _
      rw [firstFit]
      rw [hmax, if_neg hroom, hfree]
    have heq : (allFree g).allocate fresh size 0 p =
        (allFree g).commitTaken fresh free g.base 0 p := by
      unfold allocate
      rw [if_neg hsize]
      dsimp only
      rw [show (allFree g).alignUp size = 0 from hlen, takeHint_zero]
      rw [hfit]
    rw [heq, commitTaken_ret _ succeeds_fresh]
    exact hbase _ (UInt64.le_refl _)

theorem allocateSound_iff (size hint : UInt64) (p : Prot) :
    AllocateSound g size hint p ↔ AllocateSafe g size hint := by
  refine ⟨fun hsound => ?_, allocateSound_of_safe p⟩
  by_contra hunsafe
  unfold AllocateSafe at hunsafe
  rw [not_or] at hunsafe
  obtain ⟨hsize, hunsafe⟩ := hunsafe
  have hbad : HintTried g size hint ∨ 2 ^ 64 < size.toNat + g.page := by
    by_contra hcon
    rw [not_or, Nat.not_lt] at hcon
    exact hunsafe ⟨hcon.2, fun h => absurd h hcon.1⟩
  obtain ⟨hret, hhint⟩ := allocate_allFree_ret p hsize hbad
  have hs := (inArena_allFree g).inv
  obtain ⟨_, ⟨h0, _⟩ | ⟨hcov, _⟩⟩ := hsound _ fresh (inArena_allFree g) succeeds_fresh
  · exact hret h0
  · -- The last byte of the interval the request means is past the arena.
    have hup := le_roundUp g.page_pos size.toNat
    have hroom := g.limit_add_page
    have hpp := g.page_pos
    have hpos : 0 < size.toNat := by
      rcases Nat.eq_zero_or_pos size.toNat with h | h
      · exact absurd (UInt64.toNat_inj.mp h) hsize
      · exact h
    have hlast := (hs.free_mem (hcov _ (Nat.le_add_right_of_le le_rfl)
      (Nat.add_lt_add_left (Nat.sub_lt (by omega) Nat.one_pos) _))).2
    change _ + (roundUp g.page size.toNat - 1) < g.limit at hlast
    rcases Nat.lt_or_ge (2 ^ 64) (size.toNat + g.page) with hwrap | hfit
    · omega
    · by_cases htried : HintTried g size hint
      · rw [hhint htried] at hlast
        obtain ⟨k, _, _, hk⟩ := g.page_pow
        rw [toNat_maskDown hk] at hlast
        change roundDown g.page hint.toNat + _ < _ at hlast
        exact hunsafe ⟨hfit, fun _ => by omega⟩
      · exact absurd hbad (by rw [not_or]; exact ⟨htried, by omega⟩)

/-! ## CommitFixed and Release -/

/-- `CommitFixed` refuses, or gives the whole pages of an interval of the arena
the protection asked for and touches nothing else. -/
def CommitFixedSound (g : Geometry) (a n : UInt64) (p : Prot) : Prop :=
  ∀ s h, InArena g s → h.Succeeds →
  let out := s.commitFixed h a n p
  let b := roundDown g.page a.toNat
  let e := roundUp g.page (a.toNat + n.toNat)
  out.space.ListInv ∧
  ((out.ret = false ∧ Untouched s out.space) ∨
    (g.base.toNat ≤ b ∧ e ≤ g.limit ∧ ∀ x, if b ≤ x ∧ x < e
        then ¬ Covers out.space.free x ∧
          ∃ t, tagAt out.space.committed x = some t ∧ t.protection = p
        else (Covers out.space.free x ↔ Covers s.free x) ∧
          tagAt out.space.committed x = tagAt s.committed x))

/-- The bounds check of `CommitFixed` and `Release`, on the words it is made
on: `page` is the host's for the one and the guest's for the other. -/
def TurnedAway (g : Geometry) (page a n : UInt64) : Prop :=
  n = 0 ∨ maskDown page a < g.base ∨ maskUp page (a + n) > g.base + g.size

theorem commitFixed_turnedAway (href : TurnedAway s.toGeometry s.pageSize a n) :
    s.commitFixed h a n p = ⟨false, h, s⟩ := by
  unfold commitFixed
  by_cases h0 : n = 0
  · rw [if_pos h0]
  · rw [if_neg h0]
    exact if_pos (href.resolve_left h0)

theorem word_add_sub (b e : UInt64) : b + (e - b) = e := by
  rw [UInt64.add_comm, UInt64.sub_add_cancel]

theorem mem_of_not_turnedAway {q : UInt64} {k : Nat} (hq : q.toNat = 2 ^ k)
    (hdvd : q.toNat ∣ g.page) (hfit : a.toNat + n.toNat + q.toNat ≤ 2 ^ 64)
    (haway : ¬ TurnedAway g q a n) :
    0 < n.toNat ∧ g.base.toNat ≤ a.toNat ∧ a.toNat + n.toNat ≤ g.limit := by
  unfold TurnedAway at haway
  rw [not_or, not_or, UInt64.not_lt, UInt64.not_lt, UInt64.le_iff_toNat_le,
    UInt64.le_iff_toNat_le, g.toNat_limit] at haway
  have hpos : 0 < q.toNat := by
    rw [hq]
    exact Nat.two_pow_pos k
  have hsum : (a + n).toNat = a.toNat + n.toNat := toNat_add_of_lt (by omega)
  obtain ⟨h0, hlo, hhi⟩ := haway
  rw [toNat_maskDown hq, le_roundDown_iff hpos (Nat.dvd_trans hdvd g.base_aligned)] at hlo
  rw [toNat_maskUp hq (by omega), hsum,
    roundUp_le_iff hpos (Nat.dvd_trans hdvd g.page_dvd_limit)] at hhi
  refine ⟨?_, hlo, hhi⟩
  rcases Nat.eq_zero_or_pos n.toNat with h | h
  · exact absurd (UInt64.toNat_inj.mp h) h0
  · exact h

theorem commitFixed_allFree_ret (p : Prot) (haway : ¬ TurnedAway g g.pageSize a n) :
    ((allFree g).commitFixed fresh a n p).ret = true := by
  have haway' := haway
  unfold TurnedAway at haway'
  rw [not_or] at haway'
  obtain ⟨h0, hbounds⟩ := haway'
  have hbounds' := hbounds
  rw [not_or, UInt64.not_lt, UInt64.not_lt] at hbounds'
  obtain ⟨free, hfree⟩ := takeFreeExtent_allFree hbounds'.1 (by rw [word_add_sub]; exact hbounds'.2)
  unfold commitFixed
  rw [if_neg h0]
  rw [if_neg (show ¬ ((allFree g).alignDown a < (allFree g).base ∨
    (allFree g).alignUp (a + n) > (allFree g).base + (allFree g).size) from hbounds),
    show takeFreeExtent (allFree g).free ((allFree g).alignDown a)
      ((allFree g).alignUp (a + n) - (allFree g).alignDown a) = some free from hfree]
  dsimp only
  rw [if_pos (commitRange_ok (allFree g) succeeds_fresh _ _ _)]

theorem commitFixedSound_iff (a n : UInt64) (p : Prot) : CommitFixedSound g a n p ↔
      a.toNat + n.toNat + g.page ≤ 2 ^ 64 ∨ TurnedAway g g.pageSize a n := by
  have hroom := g.limit_add_page
  obtain ⟨k, _, _, hk⟩ := g.page_pow
  constructor
  · intro hsound
    by_contra hcon
    rw [not_or] at hcon
    have hret := commitFixed_allFree_ret p hcon.2
    obtain ⟨_, ⟨hfalse, _⟩ | ⟨_, he, _⟩⟩ := hsound _ fresh (inArena_allFree g)
      succeeds_fresh
    · rw [hret] at hfalse
      cases hfalse
    · have := le_roundUp g.page_pos (a.toNat + n.toNat)
      omega
  · rintro hcond s h ⟨rfl, hs, _⟩ hh
    by_cases haway : TurnedAway s.toGeometry s.pageSize a n
    · rw [commitFixed_turnedAway haway]
      exact ⟨hs, .inl ⟨rfl, rfl, rfl⟩⟩
    · obtain ⟨hpos, hlo, hhi⟩ := mem_of_not_turnedAway hk (Nat.dvd_refl _)
        (hcond.resolve_right haway) haway
      have hspan := fixedSpan hpos hlo hhi
      have hfix := commitFixed_spec hs h p hpos hlo hhi
      have hhost := (commitFixed_host hs _ p hpos hlo hhi hh).2
      refine ⟨hfix.inv, .inr ⟨?_, ?_, fun x => ?_⟩⟩
      · rw [← hspan.low]
        exact hspan.base
      · rw [← hspan.high]
        exact hspan.limit
      · split
        next hx =>
          refine ⟨hhost.taken x hx.1 hx.2, ?_⟩
          cases hattr : s.layout.attr x with
          | none =>
            obtain ⟨_, h'⟩ := hhost.placed x hx.1 hx.2 hattr
            exact ⟨_, h', rfl⟩
          | some t => exact ⟨_, hfix.owner x t hx.1 hx.2 hattr, rfl⟩
        next hx => exact ⟨(hfix.outside x hx).2, (hfix.outside x hx).1⟩

/-- `Release` refuses, or releases exactly an interval of the arena. -/
def ReleaseSound (g : Geometry) (a n : UInt64) : Prop :=
  ∀ s h, InArena g s → h.Succeeds →
  let out := s.release h a n
  let b := roundDown 4096 a.toNat
  let e := roundUp 4096 (a.toNat + n.toNat)
  out.space.ListInv ∧
  ((out.ret = false ∧ Untouched s out.space) ∨
    (g.base.toNat ≤ b ∧ e ≤ g.limit ∧ s.Released out.space b e))

theorem release_turnedAway (href : TurnedAway s.toGeometry kGuestPage a n) :
    s.release h a n = ⟨false, h, s⟩ := by
  unfold release
  by_cases h0 : n = 0
  · rw [if_pos h0]
  · rw [if_neg h0]
    exact if_pos (href.resolve_left h0)

theorem release_ret (haway : ¬ TurnedAway s.toGeometry kGuestPage a n) :
    (s.release h a n).ret = true := by
  unfold TurnedAway at haway
  rw [not_or] at haway
  unfold release
  rw [if_neg haway.1]
  rw [if_neg haway.2]

theorem releaseSound_iff (a n : UInt64) :
    ReleaseSound g a n ↔ a.toNat + n.toNat + 4096 ≤ 2 ^ 64 ∨ TurnedAway g kGuestPage a n := by
  have hroom := g.limit_add_page
  have hpage := Nat.le_of_dvd g.page_pos g.guestPage_dvd_page
  constructor
  · intro hsound
    by_contra hcon
    rw [not_or] at hcon
    have hret := release_ret (s := allFree g) (h := fresh) hcon.2
    obtain ⟨_, ⟨hfalse, _⟩ | ⟨_, he, _⟩⟩ := hsound _ fresh (inArena_allFree g)
      succeeds_fresh
    · rw [hret] at hfalse
      cases hfalse
    · have := le_roundUp (show 0 < 4096 by omega) (a.toNat + n.toNat)
      omega
  · rintro hcond s h ⟨rfl, hs, _⟩ _
    by_cases haway : TurnedAway s.toGeometry kGuestPage a n
    · rw [release_turnedAway haway]
      exact ⟨hs, .inl ⟨rfl, rfl, rfl⟩⟩
    · obtain ⟨hpos, hlo, hhi⟩ := mem_of_not_turnedAway (k := 12) rfl
        s.guestPage_dvd_page (hcond.resolve_right haway) haway
      obtain ⟨_, hinv, _, hlay⟩ := release_spec hs h hpos hlo hhi
      refine ⟨hinv, .inr ⟨?_, ?_, released_of_layout hlay⟩⟩
      · exact (le_roundDown_iff (by omega)
          (Nat.dvd_trans s.guestPage_dvd_page s.base_aligned)).mpr hlo
      · exact (roundUp_le_iff (by omega)
          (Nat.dvd_trans s.guestPage_dvd_page s.page_dvd_limit)).mpr hhi

/-! ## Protect -/

/-- `Protect` finds nothing to do, or changes exactly the owned bytes of an
interval of addresses, rounded to host pages. -/
def ProtectSound (g : Geometry) (a n : UInt64) (p : Prot) : Prop :=
  ∀ s h, InArena g s →
  let out := s.protect h a n p
  let b := roundDown g.page a.toNat
  let e := roundUp g.page (a.toNat + n.toNat)
  out.space.ListInv ∧
  ((out.ret = false ∧ Untouched s out.space) ∨
    (e < 2 ^ 64 ∧ Reprotects p b e (roundUp g.page a.toNat)
      (roundDown g.page (a.toNat + n.toNat)) s.layout out.space.layout))

/-- The sum and its round-up stay in the word, and the request is not the
empty one on a page boundary inside the arena; or the rounded ends, as words,
miss the arena. -/
def ProtectSafe (g : Geometry) (a n : UInt64) : Prop :=
  (a.toNat + n.toNat + g.page ≤ 2 ^ 64 ∧
      ¬ (n.toNat = 0 ∧ g.page ∣ a.toNat ∧ g.base.toNat < a.toNat ∧ a.toNat < g.limit)) ∨
    g.base + g.size ≤ maskDown g.pageSize a ∨ maskUp g.pageSize (a + n) ≤ g.base

theorem protect_of_missed (hs : InArena g s) (h : Host) (p : Prot)
    (hmiss : g.base + g.size ≤ maskDown g.pageSize a ∨ maskUp g.pageSize (a + n) ≤ g.base) :
    s.protect h a n p = ⟨false, h, s⟩ := by
  obtain ⟨rfl, hinv, hedges⟩ := hs
  have hno : ¬ ∃ r ∈ s.committed, Meets (s.alignDown a) (s.alignUp (a + n)) r := by
    rintro ⟨r, hr, h1, h2⟩
    obtain ⟨hlo, hhi⟩ := hedges r hr
    rw [UInt64.le_iff_toNat_le, UInt64.le_iff_toNat_le, s.toNat_limit] at hmiss
    change _ ≤ (s.alignDown a).toNat ∨ (s.alignUp (a + n)).toNat ≤ _ at hmiss
    omega
  have hlocked : s.protectLocked h a n p = ⟨false, h, s⟩ := by
    unfold protectLocked
    rw [if_neg (fun hc => hno ((touches_iff hinv).mp hc))]
  unfold protect
  rw [hlocked, if_neg (by simp)]

def allOwned (g : Geometry) (q : Prot) : GuestAddressSpace :=
  { new g with free := [], committed := [⟨g.base, g.size, q, 1, false⟩] }

theorem inArena_allOwned (g : Geometry) (q : Prot) : InArena g (allOwned g q) := by
  have hle : g.base.toNat ≤ g.limit := Nat.le_add_right _ _
  have hproper : Proper (⟨g.base, g.size, q, 1, false⟩ : GuestRange) :=
    ⟨Nat.lt_add_of_pos_right g.size_pos, g.fits⟩
  refine ⟨rfl, ⟨normal_nil, fun _ h => absurd h (by simp [allOwned]),
    wf_cons.mpr ⟨hproper, by simp, wf_nil⟩, ?_, fun _ h => absurd h (not_covers_nil _)⟩, ?_⟩
  · intro r hr
    rw [List.mem_singleton.mp hr]
    exact ⟨Nat.dvd_trans g.guestPage_dvd_page g.base_aligned,
      Nat.dvd_trans g.guestPage_dvd_page g.page_dvd_limit⟩
  · intro r hr
    rw [List.mem_singleton.mp hr]
    exact ⟨⟨le_rfl, hle⟩, hle, le_rfl⟩

theorem protectLocked_allOwned {q : Prot} (hlo : maskDown g.pageSize a < g.base + g.size)
    (hhi : g.base < maskUp g.pageSize (a + n)) : ((allOwned g q).protectLocked h a n p).ret = true ∧
    ((allOwned g q).protectLocked h a n p).space.committed =
      reprotect [⟨g.base, g.size, q, 1, false⟩] (maskDown g.pageSize a)
        (maskUp g.pageSize (a + n)) (maskUp g.pageSize a) (maskDown g.pageSize (a + n)) p := by
  have htouch : ∃ r ∈ (allOwned g q).committed,
      Meets ((allOwned g q).alignDown a) ((allOwned g q).alignUp (a + n)) r := by
    refine ⟨_, List.mem_singleton.mpr rfl, ?_, ?_⟩
    · rw [UInt64.lt_iff_toNat_lt, g.toNat_limit] at hlo
      exact hlo
    · exact UInt64.lt_iff_toNat_lt.mp hhi
  unfold protectLocked
  rw [if_pos ((touches_iff (inArena_allOwned g q).inv).mpr htouch)]
  split <;> exact ⟨rfl, rfl⟩

theorem mem_reprotect_empty {q : Prot} (hq : q ≠ p) (hlo : g.base.toNat < a.toNat)
    (hhi : a.toNat < g.limit) :
    ∃ r ∈ reprotect [⟨g.base, g.size, q, 1, false⟩] a a a a p, hi r = lo r := by
  let r : GuestRange := ⟨g.base, g.size, q, 1, false⟩
  let left : GuestRange := ⟨g.base, a - g.base, q, 1, false⟩
  let mid : GuestRange := ⟨a, 0, p, 1, false || p.has kGuestProtWrite⟩
  let right : GuestRange := ⟨a, Spanned.stop r - a, q, 1, false⟩
  have hstop : (Spanned.stop r).toNat = g.limit := g.toNat_limit
  have hmax : wordMax g.base a = a := by
    unfold wordMax
    rw [if_pos (UInt64.lt_iff_toNat_lt.mpr hlo)]
  have hmin : wordMin (Spanned.stop r) a = a := by
    unfold wordMin
    rw [if_pos (UInt64.lt_iff_toNat_lt.mpr (by omega))]
  have hpart : protectedPart a a a a p r = mid := by
    unfold protectedPart protectionFor
    dsimp only
    rw [hmin, hmax, if_pos ⟨UInt64.le_refl _, UInt64.le_refl _⟩, UInt64.sub_self]
  have hcut : [r].flatMap (cut a a fun r => [protectedPart a a a a p r]) = [left, mid, right] := by
    rw [List.flatMap_singleton, cut, if_neg, if_pos, if_pos, hpart]
    · rfl
    · exact UInt64.lt_iff_toNat_lt.mpr (by omega)
    · exact UInt64.lt_iff_toNat_lt.mpr hlo
    · rw [not_or, UInt64.not_le, UInt64.not_le]
      exact ⟨UInt64.lt_iff_toNat_lt.mpr (by omega), UInt64.lt_iff_toNat_lt.mpr hlo⟩
  have hsort : sortByBegin [left, mid, right] = [left, mid, right] := by
    refine List.Pairwise.insertionSort_eq ?_
    have hle : g.base ≤ a := UInt64.le_iff_toNat_le.mpr hlo.le
    simp [left, mid, right, Spanned.begin, hle]
  have hne : ∀ {w w' : Bool}, (⟨q, 1, w⟩ : Attr) ≠ ⟨p, 1, w'⟩ := by
    intro w w' h
    exact hq (congrArg Attr.protection h)
  refine ⟨mid, ?_, Nat.add_zero _⟩
  unfold reprotect
  rw [hcut, hsort]
  change mid ∈ joinFrom left [mid, right]
  rw [joinFrom, if_neg (fun h => hne h.2), joinFrom, if_neg (fun h => hne h.2.symm)]
  simp

theorem protectSound_iff (a n : UInt64) (p : Prot) : ProtectSound g a n p ↔ ProtectSafe g a n := by
  have hpp := g.page_pos
  obtain ⟨k, _, _, hk⟩ := g.page_pow
  constructor
  · intro hsound
    by_contra hcon
    unfold ProtectSafe at hcon
    rw [not_or, not_or, UInt64.not_le, UInt64.not_le] at hcon
    obtain ⟨hbad, hlo, hhi⟩ := hcon
    obtain ⟨q, hq⟩ : ∃ q : Prot, q ≠ p := by
      by_cases h0 : p = 0
      · exact ⟨1, by rw [h0]; decide⟩
      · exact ⟨0, fun h => h0 h.symm⟩
    obtain ⟨hret, hlist⟩ := protectLocked_allOwned hlo hhi
    have hprot : ((allOwned g q).protect fresh a n p).ret = true ∧
        ((allOwned g q).protect fresh a n p).space.committed =
          ((allOwned g q).protectLocked fresh a n p).space.committed := by
      unfold protect
      dsimp only
      split
      · exact ⟨hret, (notify_fields _ _ _).2.2.1⟩
      · exact ⟨hret, rfl⟩
    obtain ⟨hinv, ⟨hfalse, _⟩ | ⟨he, _⟩⟩ := hsound _ fresh (inArena_allOwned g q)
    · rw [hprot.1] at hfalse
      cases hfalse
    · have hup := le_roundUp g.page_pos (a.toNat + n.toNat)
      by_cases hfit : a.toNat + n.toNat + g.page ≤ 2 ^ 64
      · -- The empty request: both ends round to the address itself.
        obtain ⟨h0, ha, h1, h2⟩ : n.toNat = 0 ∧ g.page ∣ a.toNat ∧
            g.base.toNat < a.toNat ∧ a.toNat < g.limit := by
          by_contra hc
          exact hbad ⟨hfit, hc⟩
        have hn : a + n = a := by
          rw [UInt64.toNat_inj.mp (show n.toNat = (0 : UInt64).toNat from h0), UInt64.add_zero]
        have hdown : maskDown g.pageSize a = a := UInt64.toNat_inj.mp
          ((toNat_maskDown hk a).trans (roundDown_of_dvd ha))
        have hup' : maskUp g.pageSize a = a := UInt64.toNat_inj.mp
          ((toNat_maskUp hk (show a.toNat + g.page ≤ 2 ^ 64 by omega)).trans
            (roundUp_of_dvd hpp ha))
        rw [hn, hdown, hup'] at hlist
        obtain ⟨r, hr, hempty⟩ := mem_reprotect_empty hq h1 h2
        rw [← hlist, ← hprot.2] at hr
        have := (hinv.committed.proper r hr).nonempty
        omega
      · have hge : 2 ^ 64 ≤ roundUp g.page (a.toNat + n.toNat) := by
          by_contra hlt
          have hstep := add_le_of_dvd_of_lt (dvd_roundUp g.page (a.toNat + n.toNat))
            g.page_dvd_word (by omega)
          omega
        omega
  · rintro hsafe s h hs
    by_cases hmiss : g.base + g.size ≤ maskDown g.pageSize a ∨ maskUp g.pageSize (a + n) ≤ g.base
    · rw [protect_of_missed hs h p hmiss]
      exact ⟨hs.inv, .inl ⟨rfl, rfl, rfl⟩⟩
    · obtain ⟨hfit, hz⟩ := hsafe.resolve_right hmiss
      obtain ⟨rfl, hinv, hedges⟩ := hs
      have hdeg : ¬ s.Degenerate a n := by
        rintro ⟨h0, ha, r, hr, h1, h2⟩
        obtain ⟨⟨h3, _⟩, _, h4⟩ := hedges r hr
        exact hz ⟨h0, ha, by omega, by omega⟩
      obtain ⟨hinv', _, hre⟩ := protect_spec hinv h p hfit hdeg
      have := roundUp_lt s.page_pos (a.toNat + n.toNat)
      exact ⟨hinv', .inr ⟨show _ < _ by omega, hre⟩⟩

/-! ## Together -/

/-- For every geometry and all 64-bit arguments, exactly when each of the five
does what the mathematical interval means, in every state of the arena. -/
theorem sound_iff_safe (g : Geometry) :
    (∀ a n, ContainsSound g a n ↔ (a.toNat + n.toNat < 2 ^ 64 ∨ a < g.base ∨ n > g.size)) ∧
    (∀ size hint p, AllocateSound g size hint p ↔ AllocateSafe g size hint) ∧
    (∀ a n p, CommitFixedSound g a n p ↔
      a.toNat + n.toNat + g.page ≤ 2 ^ 64 ∨ TurnedAway g g.pageSize a n) ∧
    (∀ a n p, ProtectSound g a n p ↔ ProtectSafe g a n) ∧
    ∀ a n, ReleaseSound g a n ↔ a.toNat + n.toNat + 4096 ≤ 2 ^ 64 ∨ TurnedAway g kGuestPage a n :=
  ⟨containsSound_iff, allocateSound_iff, commitFixedSound_iff, protectSound_iff, releaseSound_iff⟩

theorem protect_wraps :
    let out := (new Geometry.oneMegabyte).allocate fresh 0xC000 0 3
    let s := out.space
    s.ListInv ∧ ¬ (s.protect out.host 0x100018000 0xFFFFFFFFFFFFC000 1).space.ListInv ∧
      s.contains 0xFFFFFFFFFFFFF000 0x2000 = true := by
  refine ⟨(allocate_spec (listInv_new _) _ 3 ⟨by decide, by decide, by decide⟩).1,
    fun h => ?_, by decide⟩
  have hmem : (⟨0x100018000, 0xFFFFFFFFFFFFC000, 1, 1, true⟩) ∈
      (((new Geometry.oneMegabyte).allocate fresh 0xC000 0 3).space.protect
        ((new Geometry.oneMegabyte).allocate fresh 0xC000 0 3).host
        0x100018000 0xFFFFFFFFFFFFC000 1).space.committed := by decide
  exact absurd (h.committed.proper _ hmem).fits (by decide)

end GuestAddressSpace

end Fathom
