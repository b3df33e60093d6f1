import Fathom.Proofs.Fixed
import Fathom.Runtime.Loader

/-!
# Runs of an arena

An arena is constructed once and then called. Here is what its lists are after
any number of calls, in any order, with any pattern of host failures: each of
the five operations keeps `ListInv`, so every run does.
-/

namespace Fathom

open Lib Spanned

def Attr.Flagged (t : Attr) : Prop := t.protection.has kGuestProtWrite = true → t.written = true

theorem Attr.Flagged.reprotected {t : Attr} (ht : t.Flagged) {q p : Prot}
    (hq : q = p ∨ q = t.protection ||| p) :
    (⟨q, t.epoch, t.written || p.has kGuestProtWrite⟩ : Attr).Flagged := by
  intro hw
  rw [Bool.or_eq_true]
  rcases hq with rfl | rfl
  · exact .inr hw
  · rw [Prot.has_or, Bool.or_eq_true] at hw
    exact hw.imp_left ht

namespace GuestAddressSpace

inductive Call where
  | allocate (size hint : UInt64) (protection : Prot)
  | commitFixed (address size : UInt64) (protection : Prot)
  | adoptCopiedMapping (address size : UInt64) (protection : Prot) (written : Bool)
  | protect (address size : UInt64) (protection : Prot)
  | release (address size : UInt64)

structure Machine where
  space : GuestAddressSpace
  host : Host

namespace Call

def run (c : Call) (m : Machine) : Machine :=
  match c with
  | allocate size hint protection =>
    let out := m.space.allocate m.host size hint protection
    ⟨out.space, out.host⟩
  | commitFixed address size protection =>
    let out := m.space.commitFixed m.host address size protection
    ⟨out.space, out.host⟩
  | adoptCopiedMapping address size protection written =>
    ⟨(m.space.adoptCopiedMapping address size protection written).2, m.host⟩
  | protect address size protection =>
    let out := m.space.protect m.host address size protection
    ⟨out.space, out.host⟩
  | release address size =>
    let out := m.space.release m.host address size
    ⟨out.space, out.host⟩

/-- In the arena, and nothing wraps: the ranges lie inside it, and an allocation's
size and hint can be rounded and added up. -/
def Plain (g : Geometry) : Call → Prop
  | allocate size hint _ => size.toNat + g.page ≤ 2 ^ 64 ∧
      roundDown g.page hint.toNat + roundUp g.page size.toNat < 2 ^ 64
  | commitFixed address size _ | protect address size _ | release address size
  | adoptCopiedMapping address size _ _ =>
    g.base.toNat ≤ address.toNat ∧ address.toNat + size.toNat ≤ g.limit

/-- An adopted range is also one of whole host pages. -/
def InRange (g : Geometry) : Call → Prop
  | adoptCopiedMapping address size p written =>
    (adoptCopiedMapping address size p written).Plain g ∧
      g.page ∣ address.toNat ∧ g.page ∣ size.toNat
  | c => c.Plain g

/-- The call is a protection change that cuts a range in two and puts an empty
one between the halves. -/
def Splits (s : GuestAddressSpace) : Call → Prop
  | protect address size _ => s.Degenerate address size
  | _ => False

end Call

/-- One call of a run of the arena `g` whose calls all satisfy `ok`. -/
def Step (g : Geometry) (ok : Machine → Call → Prop) (m m' : Machine) : Prop :=
  ∃ c : Call, c.InRange g ∧ ok m c ∧ m' = c.run m

/-- The machines a run reaches from a fresh arena, on some host. -/
def Reaches (g : Geometry) (ok : Machine → Call → Prop) (m : Machine) : Prop :=
  ∃ h : Host, Relation.ReflTransGen (Step g ok) ⟨new g, h⟩ m

variable {s : GuestAddressSpace}

theorem protect_spec (hs : s.ListInv) (h : Host) {a n : UInt64} (p : Prot)
    (hfit : a.toNat + n.toNat + s.page ≤ 2 ^ 64) (hdeg : ¬ s.Degenerate a n) :
    (s.protect h a n p).space.ListInv ∧ (s.protect h a n p).space.toGeometry = s.toGeometry ∧
    Reprotects p (roundDown s.page a.toNat) (roundUp s.page (a.toNat + n.toNat))
      (roundUp s.page a.toNat) (roundDown s.page (a.toNat + n.toNat)) s.layout
      (s.protect h a n p).space.layout := by
  obtain ⟨hinv, hgeo, hre⟩ := protectLocked_spec hs h p hfit hdeg
  unfold protect
  dsimp only
  split
  · refine ⟨hinv.notify _ _, (notify_fields _ _ _).1.trans hgeo, ?_⟩
    rw [notify_layout]
    exact hre
  · exact ⟨hinv, hgeo, hre⟩

variable {m : Machine}

theorem Call.run_commitFixed_empty {a n : UInt64} {p : Prot} (h0 : n.toNat = 0)
    (hhi : a.toNat + n.toNat ≤ m.space.limit) :
    ((Call.commitFixed a n p).run m).space = m.space := by
  have hroom := m.space.limit_add_page
  have href := commitFixed_refused (h := m.host) (p := p)
    (show a.toNat + n.toNat + m.space.page ≤ 2 ^ 64 by omega)
    (.inl (UInt64.toNat_inj.mp h0))
  rw [run, href]

theorem Call.run_release_empty {a n : UInt64} (h0 : n.toNat = 0)
    (hhi : a.toNat + n.toNat ≤ m.space.limit) : ((Call.release a n).run m).space = m.space := by
  have hroom := m.space.limit_add_page
  have hpage := Nat.le_of_dvd m.space.page_pos m.space.guestPage_dvd_page
  have href := release_refused (s := m.space) (h := m.host)
    (show a.toNat + n.toNat + 4096 ≤ 2 ^ 64 by omega)
    (.inl (UInt64.toNat_inj.mp h0))
  rw [run, href]

theorem Call.run_inv {c : Call} (hs : m.space.ListInv) (hin : c.InRange m.space.toGeometry)
    (hsplit : ¬ c.Splits m.space) :
    (c.run m).space.ListInv ∧ (c.run m).space.toGeometry = m.space.toGeometry := by
  have hroom := m.space.limit_add_page
  cases c with
  | allocate size _ p =>
    rcases Nat.eq_zero_or_pos size.toNat with h0 | hpos
    · rw [UInt64.toNat_inj.mp (show size.toNat = (0 : UInt64).toNat from h0)]
      exact ⟨hs, rfl⟩
    · obtain ⟨hinv, hgeo, _⟩ := allocate_spec hs m.host p ⟨hpos, hin.1, hin.2⟩
      exact ⟨hinv, hgeo⟩
  | commitFixed a n p =>
    obtain ⟨hlo, hhi⟩ := hin
    rcases Nat.eq_zero_or_pos n.toNat with h0 | hpos
    · rw [run_commitFixed_empty h0 hhi]
      exact ⟨hs, rfl⟩
    · have hfix := commitFixed_spec hs m.host p hpos hlo hhi
      exact ⟨hfix.inv, hfix.geometry⟩
  | adoptCopiedMapping a n p written =>
    obtain ⟨⟨_, hhi⟩, ha, hn⟩ := hin
    have hpp := m.space.page_pos
    obtain ⟨hinv, hgeo, _⟩ := adoptCopiedMapping_spec hs p written ha hn
      (show a.toNat + n.toNat < 2 ^ 64 by omega)
    exact ⟨hinv, hgeo⟩
  | protect a n p =>
    obtain ⟨_, hhi⟩ := hin
    obtain ⟨hinv, hgeo, _⟩ := protect_spec hs m.host p
      (show a.toNat + n.toNat + m.space.page ≤ 2 ^ 64 by omega) hsplit
    exact ⟨hinv, hgeo⟩
  | release a n =>
    obtain ⟨hlo, hhi⟩ := hin
    rcases Nat.eq_zero_or_pos n.toNat with h0 | hpos
    · rw [run_release_empty h0 hhi]
      exact ⟨hs, rfl⟩
    · obtain ⟨_, hinv, hgeo, _⟩ := release_spec hs m.host hpos hlo hhi
      exact ⟨hinv, hgeo⟩

variable {ok : Machine → Call → Prop}

theorem Reaches.inv {g : Geometry} (hok : ∀ m c, ok m c → ¬ c.Splits m.space)
    (hr : Reaches g ok m) : m.space.ListInv ∧ m.space.toGeometry = g := by
  obtain ⟨h, hr⟩ := hr
  induction hr with
  | refl => exact ⟨listInv_new g, rfl⟩
  | tail _ hstep ih =>
    obtain ⟨hinv, hgeo⟩ := ih
    obtain ⟨c, hin, hc, rfl⟩ := hstep
    obtain ⟨hinv', hgeo'⟩ := c.run_inv hinv (by rw [hgeo]; exact hin) (hok _ _ hc)
    exact ⟨hinv', hgeo'.trans hgeo⟩

/-! ## Attributes

What the ranges say about their bytes, along a run of the calls a guest's
system calls and its loader make. Adopting a copied mapping is not one of
them; only a fork does that. -/

def Call.Guest : Call → Prop
  | .adoptCopiedMapping .. => False
  | _ => True

structure Sane (s : GuestAddressSpace) : Prop where
  inv : s.ListInv
  arena : ∀ x t, s.layout.attr x = some t → s.base.toNat ≤ x ∧ x < s.limit
  flagged : ∀ x t, s.layout.attr x = some t → t.Flagged

theorem sane_new (g : Geometry) : (new g).Sane :=
  ⟨listInv_new g, fun _ _ h => (nomatch h), fun _ _ h => (nomatch h)⟩

theorem flagged_newAttr (s : GuestAddressSpace) (p : Prot) : (s.newAttr p).Flagged := id

variable {s' : GuestAddressSpace}

theorem Sane.of_attr (hs : s.Sane) (hinv : s'.ListInv) (hgeo : s'.toGeometry = s.toGeometry)
    (h : ∀ x u, s'.layout.attr x = some u → s.layout.attr x = some u ∨
      (s.base.toNat ≤ x ∧ x < s.limit) ∧ u.Flagged) : s'.Sane := by
  refine ⟨hinv, fun x u hu => ?_, fun x u hu => ?_⟩
  · rw [hgeo]
    rcases h x u hu with ho | ⟨hx, _⟩
    · exact hs.arena x u ho
    · exact hx
  · rcases h x u hu with ho | ⟨_, hx⟩
    · exact hs.flagged x u ho
    · exact hx

theorem Sane.placed (hs : s.Sane) {b e : Nat} {t : Attr} (hinv : s'.ListInv)
    (hgeo : s'.toGeometry = s.toGeometry) (ht : t.Flagged) (hb : s.base.toNat ≤ b)
    (he : e ≤ s.limit) (hlay : s'.layout = s.layout.place b e t) : s'.Sane := by
  refine hs.of_attr hinv hgeo fun x u hu => ?_
  rw [hlay, Layout.place_attr] at hu
  split at hu
  · cases hu
    exact .inr ⟨by omega, ht⟩
  · exact .inl hu

theorem Sane.fixes (hs : s.Sane) {p : Prot} {b e : Nat} (hb : s.base.toNat ≤ b) (he : e ≤ s.limit)
    (hf : Fixes p b e s s') : s'.Sane := by
  refine hs.of_attr hf.inv hf.geometry fun x u hu => ?_
  by_cases hx : b ≤ x ∧ x < e
  · refine .inr ⟨by omega, ?_⟩
    cases hold : s.layout.attr x with
    | none =>
      obtain ⟨hp, hw⟩ := hf.fresh x u hx.1 hx.2 hold hu
      intro h
      rw [hw, ← hp]
      exact h
    | some t =>
      rw [hf.owner x t hx.1 hx.2 hold] at hu
      cases hu
      exact (hs.flagged x t hold).reprotected (.inl rfl)
  · rw [(hf.outside x hx).1] at hu
    exact .inl hu

theorem Sane.reprotects (hs : s.Sane) {p : Prot} {b e sb se : Nat} (hinv : s'.ListInv)
    (hgeo : s'.toGeometry = s.toGeometry) (hre : Reprotects p b e sb se s.layout s'.layout) :
    s'.Sane := by
  refine hs.of_attr hinv hgeo fun x u hu => ?_
  cases hold : s.layout.attr x with
  | none =>
    rw [hre.owners x hold] at hu
    cases hu
  | some t =>
    by_cases hx : b ≤ x ∧ x < e
    · obtain ⟨q, hq, hor⟩ := hre.inside x t hx.1 hx.2 hold
      rw [hq] at hu
      cases hu
      exact .inr ⟨hs.arena x t hold, (hs.flagged x t hold).reprotected (hor.imp And.left And.left)⟩
    · rw [hre.outside x hx, hold] at hu
      exact .inl hu

theorem Call.run_sane {c : Call} (hs : m.space.Sane) (hguest : c.Guest)
    (hin : c.InRange m.space.toGeometry) (hsplit : ¬ c.Splits m.space) : (c.run m).space.Sane := by
  have hroom := m.space.limit_add_page
  obtain ⟨hinv, hgeo⟩ := c.run_inv hs.inv hin hsplit
  cases c with
  | allocate size _ p =>
    rcases Nat.eq_zero_or_pos size.toNat with h0 | hpos
    · rw [UInt64.toNat_inj.mp (show size.toNat = (0 : UInt64).toNat from h0)]
      exact hs
    · obtain ⟨_, _, ⟨_, hlay⟩ | ⟨a, n, _, ht, _, hlay⟩⟩ :=
        allocate_spec hs.inv m.host p ⟨hpos, hin.1, hin.2⟩
      · refine hs.of_attr hinv hgeo fun x u hu => .inl ?_
        rw [← hlay]
        exact hu
      · obtain ⟨hlo, hhi⟩ := ht.mem_arena hs.inv
        exact hs.placed hinv hgeo (flagged_newAttr _ p) hlo hhi hlay
  | commitFixed a n p =>
    obtain ⟨hlo, hhi⟩ := hin
    rcases Nat.eq_zero_or_pos n.toNat with h0 | hpos
    · rw [run_commitFixed_empty h0 hhi]
      exact hs
    · have hfix := commitFixed_spec hs.inv m.host p hpos hlo hhi
      exact hs.fixes ((le_roundDown_iff m.space.page_pos m.space.base_aligned).mpr hlo)
        ((roundUp_le_iff m.space.page_pos m.space.page_dvd_limit).mpr hhi) hfix
  | adoptCopiedMapping a n p _ => exact hguest.elim
  | protect a n p =>
    obtain ⟨_, hhi⟩ := hin
    obtain ⟨_, _, hre⟩ := protect_spec hs.inv m.host p
      (show a.toNat + n.toNat + m.space.page ≤ 2 ^ 64 by omega) hsplit
    exact hs.reprotects hinv hgeo hre
  | release a n =>
    obtain ⟨hlo, hhi⟩ := hin
    rcases Nat.eq_zero_or_pos n.toNat with h0 | hpos
    · rw [run_release_empty h0 hhi]
      exact hs
    · obtain ⟨_, _, _, hlay⟩ := release_spec hs.inv m.host hpos hlo hhi
      refine hs.of_attr hinv hgeo fun x u hu => .inl ?_
      change (m.space.release m.host a n).space.layout.attr x = some u at hu
      rw [hlay, Layout.drop_attr] at hu
      split at hu
      · cases hu
      · exact hu

theorem Reaches.sane {g : Geometry} (hok : ∀ m c, ok m c → c.Guest ∧ ¬ c.Splits m.space)
    (hr : Reaches g ok m) : m.space.Sane ∧ m.space.toGeometry = g := by
  obtain ⟨h, hr⟩ := hr
  induction hr with
  | refl => exact ⟨sane_new g, rfl⟩
  | tail _ hstep ih =>
    obtain ⟨hsane, hgeo⟩ := ih
    obtain ⟨c, hin, hc, rfl⟩ := hstep
    obtain ⟨hguest, hsplit⟩ := hok _ _ hc
    rw [← hgeo] at hin
    exact ⟨c.run_sane hsane hguest hin hsplit, (c.run_inv hsane.inv hin hsplit).2.trans hgeo⟩

/-- In every run without a splitting call the lists keep their invariant. -/
theorem listInv_of_reaches {g : Geometry} {m : Machine}
    (hr : Reaches g (fun m c => ¬ c.Splits m.space) m) : m.space.ListInv :=
  (hr.inv fun _ _ h => h).1

theorem reaches_not_listInv :
    ∃ m, Reaches Geometry.oneMegabyte (fun _ _ => True) m ∧ ¬ m.space.ListInv := by
  refine ⟨(Call.protect 0x100014000 0 1).run
    ((Call.allocate 0x8000 0 3).run ⟨new Geometry.oneMegabyte, Host.fresh⟩),
    ⟨Host.fresh, .tail (.single ⟨.allocate 0x8000 0 3, by unfold Call.InRange Call.Plain; decide,
      trivial, rfl⟩) ⟨.protect 0x100014000 0 1, by unfold Call.InRange Call.Plain; decide,
      trivial, rfl⟩⟩, fun h => ?_⟩
  have hmem : (⟨0x100014000, 0, 1, 1, true⟩) ∈
      ((Call.protect 0x100014000 0 1).run ((Call.allocate 0x8000 0 3).run
        ⟨new Geometry.oneMegabyte, Host.fresh⟩)).space.committed := by decide
  exact absurd (h.committed.proper _ hmem).nonempty (by decide)

theorem listInv_of_reaches_released :
    let m := (Call.release 0x100010000 0x4000).run
      ((Call.allocate 0x8000 0 3).run ⟨new Geometry.oneMegabyte, Host.fresh⟩)
    m.space.committed = [⟨0x100014000, 0x4000, 3, 1, true⟩] ∧ m.space.ListInv :=
  ⟨by decide, listInv_of_reaches ⟨Host.fresh, .tail
    (.single ⟨.allocate 0x8000 0 3, by unfold Call.InRange Call.Plain; decide, id, rfl⟩)
    ⟨.release 0x100010000 0x4000, by unfold Call.InRange Call.Plain; decide, id, rfl⟩⟩⟩

/-! ## No page is lost -/

variable {s : GuestAddressSpace}

/-- Each host page above the lowest 64KB is free, or has an owner on it. -/
def NothingLost (s : GuestAddressSpace) : Prop :=
  s.layout.Accounted s.page (s.base.toNat + kLowestUsable.toNat) s.limit

theorem nothingLost_new (g : Geometry) : (new g).NothingLost := by
  intro q _ hlow hhigh
  exact .inl fun x h1 h2 => (covers_new g x).mpr ⟨hlow.trans h1, h2.trans_le hhigh⟩

/-! ## The gaps of a fixed mapping -/

def GapsGranted (p : Prot) : List (UInt64 × UInt64) → GuestAddressSpace → Host → Prop
  | [], _, _ => True
  | g :: rest, s, h =>
    (commitRange h g.1 g.2 s.pageSize (toHostProtection p) s.committed).1 = true ∧
      GapsGranted p rest (commitGap p g s h).2 (commitGap p g s h).1

theorem commitGaps_owned {p : Prot} {gaps : List (UInt64 × UInt64)} :
    ∀ {s : GuestAddressSpace} {h : Host}, s.ListInv → (∀ g ∈ gaps, s.Pending g) →
    gaps.Pairwise (fun g g' => g.2.toNat ≤ g'.1.toNat) → GapsGranted p gaps s h →
    ∀ x, InGaps gaps x → (commitGaps p gaps s h).2.layout.attr x ≠ none := by
  induction gaps with
  | nil =>
    intro s h _ _ _ _ x hx
    simp [InGaps] at hx
  | cons g rest ih =>
    intro s h hs hpend hsort hgrant x hx
    obtain ⟨hg, hrest⟩ := List.pairwise_cons.mp hsort
    have hp := hpend g (by simp)
    have hfill := commitGap_fills hs h hp p
    have hpend' : ∀ g' ∈ rest, (commitGap p g s h).2.Pending g' := by
      intro g' hg'
      refine hfill.pending (hpend g' (by simp [hg'])) (fun y h1 _ hin => ?_) fun y hy => ?_
      · rw [inGaps_singleton] at hin
        have := hg g' hg'
        omega
      · rw [inGaps_singleton] at hy
        exact hp.none y hy.1 hy.2
    rw [commitGaps_cons]
    by_cases hin : InGaps rest x
    · exact ih hfill.inv hpend' hrest hgrant.2 x hin
    · have hkeep := (commitGaps_spec (p := p) (commitGap p g s h).1 hfill.inv hpend'
        hrest).1.outside x hin
      rw [hkeep]
      exact commitGap_owned hs hp p hgrant.1 x ((inGaps_cons.mp hx).resolve_right hin)

theorem commitFixedMixed_owned (hs : s.ListInv) (h : Host) {b e : UInt64} (p : Prot)
    (hlt : b.toNat < e.toNat) (hb : s.page ∣ b.toNat) (he : s.page ∣ e.toNat)
    (hlo : s.base.toNat ≤ b.toNat) (hhi : e.toNat ≤ s.limit)
    (hgrant : GapsGranted p (uncommittedIn s.committed b e) s h) : ∀ x, b.toNat ≤ x → x < e.toNat →
    (s.commitFixedMixed h b e p).space.layout.attr x ≠ none := by
  intro x h1 h2
  have hpend := hs.pending_gaps hb he hlo hhi
  have hsort := (gaps_uncommittedIn hs.committed b e).sorted
  have hfill := (commitGaps_spec (p := p) h hs hpend hsort).1
  obtain ⟨_, hlay⟩ := fixes_of_fills hs
    (commitGaps p (uncommittedIn s.committed b e) s h).1 p hlt hb he hhi hfill
  unfold commitFixedMixed
  rw [hlay, Layout.retag_attr, if_pos ⟨h1, h2⟩]
  by_cases hx : s.layout.attr x = none
  · have hin := (hs.inGaps_iff).mpr ⟨⟨h1, h2⟩, hx⟩
    simpa using commitGaps_owned hs hpend hsort hgrant x hin
  · rw [hfill.outside x fun hin => hx (hs.inGaps_iff.mp hin).2]
    simpa using hx

theorem commitFixed_owned (hs : s.ListInv) (h : Host) {a n : UInt64} (p : Prot)
    (hpos : 0 < n.toNat) (hlo : s.base.toNat ≤ a.toNat) (hhi : a.toNat + n.toNat ≤ s.limit)
    (hgrant : ¬ s.Takes (s.alignDown a) (s.alignUp (a + n) - s.alignDown a) →
      GapsGranted p (uncommittedIn s.committed (s.alignDown a) (s.alignUp (a + n))) s h) :
    ((s.commitFixed h a n p).ret = false ∧ (s.commitFixed h a n p).space.layout = s.layout) ∨
      ∀ x, roundDown s.page a.toNat ≤ x → x < roundUp s.page (a.toNat + n.toNat) →
        (s.commitFixed h a n p).space.layout.attr x ≠ none := by
  have hspan := fixedSpan hpos hlo hhi
  rw [← hspan.low, ← hspan.high]
  rcases hs.commitFixed_cases h p hpos hlo hhi with ⟨ht, heq⟩ | ⟨ht, heq⟩
  · rw [heq]
    obtain ⟨_, _, ⟨_, hlay⟩ | hno⟩ := commitFixedFree_cases hs h hspan.pos ht p
    · refine .inr fun x h1 h2 => ?_
      rw [hlay, Layout.place_attr, if_pos ⟨h1, h2⟩]
      simp
    · exact .inl hno
  · rw [heq]
    exact .inr (commitFixedMixed_owned hs h p hspan.pos hspan.lowPage hspan.highPage
      hspan.base hspan.limit (hgrant ht))

/-! ## Runs -/

def Call.Granted (m : Machine) : Call → Prop
  | .commitFixed a n p =>
    let b := m.space.alignDown a
    let e := m.space.alignUp (a + n)
    ¬ m.space.Takes b (e - b) → GapsGranted p (uncommittedIn m.space.committed b e) m.space m.host
  | _ => True

structure Call.Careful (m : Machine) (c : Call) : Prop where
  guest : c.Guest
  whole : ¬ c.Splits m.space
  granted : c.Granted m

theorem NothingLost.of_layout {s' : GuestAddressSpace} (hs : s.NothingLost)
    (hgeo : s'.toGeometry = s.toGeometry) (hlay : s'.layout = s.layout) : s'.NothingLost := by
  unfold NothingLost
  rw [hgeo, hlay]
  exact hs

theorem Call.run_nothingLost {m : Machine} {c : Call} (hs : m.space.ListInv)
    (hlost : m.space.NothingLost) (hin : c.InRange m.space.toGeometry)
    (hc : c.Careful m) : (c.run m).space.NothingLost := by
  have hroom := m.space.limit_add_page
  have hpp := m.space.page_pos
  obtain ⟨_, hgeo⟩ := c.run_inv hs hin hc.whole
  cases c with
  | allocate size _ p =>
    rcases Nat.eq_zero_or_pos size.toNat with h0 | hpos
    · rw [UInt64.toNat_inj.mp (show size.toNat = (0 : UInt64).toNat from h0)]
      exact hlost
    · obtain ⟨_, _, ⟨_, hlay⟩ | ⟨a, n, _, ht, _, hlay⟩⟩ :=
        allocate_spec hs m.host p ⟨hpos, hin.1, hin.2⟩
      · exact hlost.of_layout hgeo hlay
      · unfold NothingLost
        rw [hgeo, run, hlay]
        exact Layout.Accounted.place hlost hpp ht.start _ _
  | commitFixed a n p =>
    obtain ⟨hlo, hhi⟩ := hin
    rcases Nat.eq_zero_or_pos n.toNat with h0 | hpos
    · rw [run_commitFixed_empty h0 hhi]
      exact hlost
    · rcases commitFixed_owned hs m.host p hpos hlo hhi hc.granted with ⟨_, hlay⟩ | hown
      · exact hlost.of_layout hgeo hlay
      · unfold NothingLost
        rw [hgeo]
        exact Layout.Accounted.owned hlost hpp (dvd_roundDown _ _) hown
          (commitFixed_spec hs m.host p hpos hlo hhi).outside
  | adoptCopiedMapping a n p _ => exact hc.guest.elim
  | protect a n p =>
    obtain ⟨_, hhi⟩ := hin
    obtain ⟨_, _, hre⟩ := protect_spec hs m.host p
      (show a.toNat + n.toNat + m.space.page ≤ 2 ^ 64 by omega) hc.whole
    unfold NothingLost
    rw [hgeo]
    refine Layout.Accounted.retagged hlost (fun x hx => ?_) hre.free
    cases ht : m.space.layout.attr x with
    | none => rfl
    | some t =>
      have hkeep : (m.space.protect m.host a n p).space.layout.attr x ≠ none := by
        by_cases hin : roundDown m.space.page a.toNat ≤ x ∧
            x < roundUp m.space.page (a.toNat + n.toNat)
        · obtain ⟨q, hq, _⟩ := hre.inside x t hin.1 hin.2 ht
          rw [hq]
          simp
        · rw [hre.outside x hin, ht]
          simp
      exact absurd hx hkeep
  | release a n =>
    obtain ⟨hlo, hhi⟩ := hin
    rcases Nat.eq_zero_or_pos n.toNat with h0 | hpos
    · rw [run_release_empty h0 hhi]
      exact hlost
    · obtain ⟨_, _, _, hlay⟩ := release_spec hs m.host hpos hlo hhi
      unfold NothingLost
      rw [hgeo, run, hlay]
      exact Layout.Accounted.drop hlost hpp _ _

theorem Reaches.nothingLost {g : Geometry} {ok : Machine → Call → Prop}
    (hok : ∀ m c, ok m c → c.Careful m) {m : Machine} (hr : Reaches g ok m) :
    m.space.ListInv ∧ m.space.toGeometry = g ∧ m.space.NothingLost := by
  obtain ⟨h, hr⟩ := hr
  induction hr with
  | refl => exact ⟨listInv_new g, rfl, nothingLost_new g⟩
  | tail _ hstep ih =>
    obtain ⟨hinv, hgeo, hlost⟩ := ih
    obtain ⟨c, hin, hc, rfl⟩ := hstep
    rw [← hgeo] at hin
    have hcare := hok _ _ hc
    obtain ⟨hinv', hgeo'⟩ := c.run_inv hinv hin hcare.whole
    exact ⟨hinv', hgeo'.trans hgeo, c.run_nothingLost hinv hlost hin hcare⟩

/-- In every run whose fixed mappings have no gap refused, no page is lost, and
a fixed mapping that says it worked leaves all of its range committed. -/
theorem nothingLost_of_reaches {g : Geometry} {m : Machine}
    (hr : Reaches g (fun m c => c.Careful m) m) :
    m.space.NothingLost ∧ ∀ a n p, (Call.commitFixed a n p).InRange g →
    (Call.commitFixed a n p).Careful m →
    (m.space.commitFixed m.host a n p).ret = true → ∀ x, a.toNat ≤ x →
    x < a.toNat + n.toNat → Covers (m.space.commitFixed m.host a n p).space.committed x := by
  obtain ⟨hinv, hgeo, hlost⟩ := hr.nothingLost fun _ _ h => h
  refine ⟨hlost, fun a n p hin hc hret x h1 h2 => ?_⟩
  rw [← hgeo] at hin
  rcases commitFixed_owned hinv m.host p (by omega) hin.1 hin.2 hc.granted with
    ⟨hno, _⟩ | hown
  · rw [hret] at hno
    cases hno
  · by_contra hcov
    refine hown x (Nat.le_trans (roundDown_le _ _) h1) ?_ (tagAt_eq_none.mpr hcov)
    exact h2.trans_le (le_roundUp m.space.page_pos _)

def beforeRefusal : Machine :=
  (Call.allocate 0x4000 0 3).run
    ⟨new Geometry.oneMegabyte, { Host.fresh with answers := fun k => k != 3 }⟩

theorem reaches_lost : ∃ m, Reaches Geometry.oneMegabyte (fun m c => c.Guest ∧ ¬ c.Splits m.space)
    m ∧ (Call.commitFixed 0x100010000 0x8000 3).InRange Geometry.oneMegabyte ∧
    (m.space.commitFixed m.host 0x100010000 0x8000 3).ret = true ∧
    ¬ Covers (m.space.commitFixed m.host 0x100010000 0x8000 3).space.committed 0x100014000 ∧
    ¬ (m.space.commitFixed m.host 0x100010000 0x8000 3).space.NothingLost := by
  have hcom : (beforeRefusal.space.commitFixed beforeRefusal.host 0x100010000 0x8000
      3).space.committed = [⟨0x100010000, 0x4000, 3, 1, true⟩] := by decide
  have hno : ∀ x, 0x100014000 ≤ x → ¬ Covers (beforeRefusal.space.commitFixed
      beforeRefusal.host 0x100010000 0x8000 3).space.committed x := by
    intro x hx
    rw [hcom]
    rintro ⟨r, hr, hrx⟩
    rw [List.mem_singleton.mp hr] at hrx
    have hhi : hi (⟨0x100010000, 0x4000, 3, 1, true⟩ : GuestRange) = 0x100014000 := rfl
    unfold Has at hrx
    omega
  refine ⟨beforeRefusal, ⟨_, .single
    ⟨.allocate 0x4000 0 3, by unfold Call.InRange Call.Plain; decide,
    ⟨trivial, id⟩, rfl⟩⟩, by unfold Call.InRange Call.Plain; decide, by decide, hno _ le_rfl,
    fun h => ?_⟩
  rcases h 0x100014000 (by decide) (by decide) (by decide) with hfree | ⟨x, h1, _, hx⟩
  · have htag := tagAt_isSome.mpr (hfree 0x100014000 le_rfl (by decide))
    exact absurd htag (by decide)
  · exact hx (tagAt_eq_none.mpr (hno x h1))

theorem nothingLost_of_reaches_onePage :
    Reaches Geometry.oneMegabyte (fun m c => c.Careful m) ⟨onePage.space, onePage.host⟩ ∧
    onePage.space.NothingLost ∧
    Covers (onePage.space.commitFixed onePage.host 0x100010000 0x8000 3).space.committed
      0x100014000 := by
  have hr : Reaches Geometry.oneMegabyte (fun m c => c.Careful m) ⟨onePage.space, onePage.host⟩ :=
    ⟨Host.fresh, .single ⟨.allocate 0x4000 0 3, by unfold Call.InRange Call.Plain; decide,
      ⟨trivial, id, trivial⟩, rfl⟩⟩
  obtain ⟨hlost, hall⟩ := nothingLost_of_reaches hr
  have hgrant : (Call.commitFixed 0x100010000 0x8000 3).Careful
      ⟨onePage.space, onePage.host⟩ := ⟨trivial, id, fun _ => ⟨by decide, trivial⟩⟩
  exact ⟨hr, hlost, hall 0x100010000 0x8000 3 (by unfold Call.InRange Call.Plain; decide) hgrant
    (by decide) 0x100014000 (by decide) (by decide)⟩

end GuestAddressSpace

/-! ## A protection change takes nothing from its neighbours -/

/-- What a protection change of `[a, a + n)` to `p` leaves of a layout. -/
structure Widens (p : Prot) (page a n : Nat) (L L' : Layout Attr) : Prop where
  epochs : ∀ x, (L'.attr x).map Attr.epoch = (L.attr x).map Attr.epoch
  inside : ∀ x t, a ≤ x → x < a + n → L'.attr x = some t → p.le t.protection
  outside : ∀ x t t', ¬ (a ≤ x ∧ x < a + n) → L.attr x = some t → L'.attr x = some t' →
    t.protection.le t'.protection
  beyond : ∀ x, ¬ (roundDown page a ≤ x ∧ x < roundUp page (a + n)) → L'.attr x = L.attr x

def Layout.Permits (L : Layout Attr) (p : Prot) (x : Nat) : Prop :=
  ∃ t, L.attr x = some t ∧ p.le t.protection

variable {L L' : Layout Attr}

theorem Widens.isSome_iff {p : Prot} {page a n : Nat} (hw : Widens p page a n L L') (x : Nat) :
    (L'.attr x).isSome = (L.attr x).isSome := by
  have h := congrArg Option.isSome (hw.epochs x)
  rwa [Option.isSome_map, Option.isSome_map] at h

theorem Widens.permits_inside {p : Prot} {page a n : Nat} (hw : Widens p page a n L L') {x : Nat}
    (h1 : a ≤ x) (h2 : x < a + n) (hx : (L.attr x).isSome = true) : L'.Permits p x := by
  rw [← hw.isSome_iff] at hx
  obtain ⟨t, ht⟩ := Option.isSome_iff_exists.mp hx
  exact ⟨t, ht, hw.inside x t h1 h2 ht⟩

theorem Widens.permits_outside {p q : Prot} {page a n : Nat} (hw : Widens p page a n L L') {x : Nat}
    (hx : ¬ (a ≤ x ∧ x < a + n)) (h : L.Permits q x) : L'.Permits q x := by
  obtain ⟨t, ht, hq⟩ := h
  have hsome : (L'.attr x).isSome = true := by rw [hw.isSome_iff, ht]; rfl
  obtain ⟨t', ht'⟩ := Option.isSome_iff_exists.mp hsome
  exact ⟨t', ht', Prot.le_trans hq (hw.outside x t t' hx ht ht')⟩

namespace GuestAddressSpace

variable {s : GuestAddressSpace}

theorem Reprotects.widens {p : Prot} {page a n : Nat} (hpos : 0 < page) {L L' : Layout Attr}
    (h : Reprotects p (roundDown page a) (roundUp page (a + n)) (roundUp page a)
      (roundDown page (a + n)) L L') : Widens p page a n L L' := by
  have hdown := roundDown_le page a
  have hup := le_roundUp hpos (a + n)
  have hup' := le_roundUp hpos a
  have hdown' := roundDown_le page (a + n)
  -- Inside the rounding a byte has the request's protection, on the request's
  -- own whole pages, or that and its own.
  have hin : ∀ x t, roundDown page a ≤ x → x < roundUp page (a + n) → L.attr x = some t →
      ∃ t', L'.attr x = some t' ∧ t'.epoch = t.epoch ∧ p.le t'.protection ∧
        (¬ (a ≤ x ∧ x < a + n) → t.protection.le t'.protection) := by
    intro x t h1 h2 ht
    obtain ⟨q, hq, ⟨rfl, hb, he⟩ | ⟨rfl, _⟩⟩ := h.inside x t h1 h2 ht
    · exact ⟨_, hq, rfl, Prot.le_refl _, fun hx => absurd ⟨by omega, by omega⟩ hx⟩
    · exact ⟨_, hq, rfl, Prot.le_or_right _ _, fun _ => Prot.le_or_left _ _⟩
  refine ⟨fun x => ?_, fun x t h1 h2 ht => ?_, fun x t t' hx ht ht' => ?_, h.outside⟩
  · by_cases hx : roundDown page a ≤ x ∧ x < roundUp page (a + n)
    · cases ht : L.attr x with
      | none => rw [h.owners x ht]
      | some t =>
        obtain ⟨t', ht', he, _⟩ := hin x t hx.1 hx.2 ht
        rw [ht', Option.map_some, Option.map_some, he]
    · rw [h.outside x hx]
  · cases hold : L.attr x with
    | none =>
      rw [h.owners x hold] at ht
      cases ht
    | some u =>
      obtain ⟨t', ht', _, hp, _⟩ := hin x u (by omega) (by omega) hold
      rw [ht] at ht'
      cases ht'
      exact hp
  · by_cases hr : roundDown page a ≤ x ∧ x < roundUp page (a + n)
    · obtain ⟨u, hu, _, _, hle⟩ := hin x t hr.1 hr.2 ht
      rw [ht'] at hu
      cases hu
      exact hle hx
    · rw [h.outside x hr, ht] at ht'
      cases ht'
      exact Prot.le_refl _

theorem protect_widens (hs : s.ListInv) (h : Host) {a n : UInt64} (p : Prot)
    (hfit : a.toNat + n.toNat + s.page ≤ 2 ^ 64) :
    Widens p s.page a.toNat n.toNat s.layout (s.protect h a n p).space.layout := by
  have hre := (protectLocked_reprotects hs h p hfit).2
  have hlay : (s.protect h a n p).space.layout = (s.protectLocked h a n p).space.layout := by
    unfold protect
    dsimp only
    split
    · exact notify_layout _ _ _
    · rfl
  rw [hlay]
  exact hre.widens s.page_pos

end GuestAddressSpace

/-! ## The loader's turns -/

def Phdr.Has (segment : Phdr) (loadBase : UInt64) (x : Nat) : Prop :=
  (loadBase + segment.pVaddr).toNat ≤ x ∧
  x < (loadBase + segment.pVaddr).toNat + segment.pMemsz.toNat

def Phdr.Within (segment : Phdr) (loadBase : UInt64) (page : Nat) : Prop :=
  (loadBase + segment.pVaddr).toNat + segment.pMemsz.toNat + page ≤ 2 ^ 64

def Phdr.Disjoint (loadBase : UInt64) (segments : List Phdr) : Prop :=
  segments.Pairwise fun a b => a.loads = true → b.loads = true →
  ∀ x, a.Has loadBase x → ¬ b.Has loadBase x

namespace GuestAddressSpace

variable {s : GuestAddressSpace} {loadBase : UInt64}

theorem protect_segment (hs : s.ListInv) (h : Host) {segment : Phdr} (hload : segment.loads = true)
    (hfit : segment.Within loadBase s.page) :
    let out := s.protect h (loadBase + segment.pVaddr) segment.pMemsz
      (toGuestProtection segment.pFlags)
    out.space.ListInv ∧ out.space.toGeometry = s.toGeometry ∧
      Widens (toGuestProtection segment.pFlags) s.page (loadBase + segment.pVaddr).toNat
        segment.pMemsz.toNat s.layout out.space.layout := by
  have hne : segment.pMemsz.toNat ≠ 0 := by
    intro h0
    have : segment.pMemsz = 0 := UInt64.toNat_inj.mp h0
    simp [Phdr.loads, this] at hload
  obtain ⟨hinv, hgeo, _⟩ := protect_spec hs h (toGuestProtection segment.pFlags) hfit
    fun hdeg => hne hdeg.1
  exact ⟨hinv, hgeo, protect_widens hs h _ hfit⟩

theorem protectSegments_skip {g : Phdr} {rest : List Phdr} {h : Host} (hload : g.loads = false) :
    protectSegments loadBase (g :: rest) s h = protectSegments loadBase rest s h := by
  rw [protectSegments, hload]
  rfl

theorem protectSegments_turn {g : Phdr} {rest : List Phdr} {h : Host} (hload : g.loads = true) :
    protectSegments loadBase (g :: rest) s h = protectSegments loadBase rest
        (s.protect h (loadBase + g.pVaddr) g.pMemsz (toGuestProtection g.pFlags)).space
        (s.protect h (loadBase + g.pVaddr) g.pMemsz (toGuestProtection g.pFlags)).host := by
  rw [protectSegments, hload]
  rfl

section

variable {segments : List Phdr} {h : Host} (hs : s.ListInv)
  (hfit : ∀ g ∈ segments, g.loads = true → g.Within loadBase s.page)
include hs hfit

theorem protectSegments_keeps :
    ∀ x q, s.layout.Permits q x → (∀ g ∈ segments, g.loads = true → ¬ g.Has loadBase x) →
    (protectSegments loadBase segments s h).2.layout.Permits q x := by
  induction segments generalizing s h with
  | nil => exact fun x q hx _ => hx
  | cons g _ ih =>
    have hfit' := fun g' hg' => hfit g' (List.mem_cons_of_mem _ hg')
    intro x q hx hout
    have hout' := fun g' hg' => hout g' (List.mem_cons_of_mem _ hg')
    cases hload : g.loads with
    | false =>
      rw [protectSegments_skip hload]
      exact ih hs hfit' x q hx hout'
    | true =>
      obtain ⟨hinv, hgeo, hw⟩ := protect_segment hs h hload (hfit g (by simp) hload)
      rw [protectSegments_turn hload]
      rw [← hgeo] at hfit'
      exact ih hinv hfit' x q (hw.permits_outside (hout g (by simp) hload) hx) hout'

theorem protectSegments_permits (hdis : Phdr.Disjoint loadBase segments) :
    ∀ g ∈ segments, g.loads = true → ∀ x, g.Has loadBase x → (s.layout.attr x).isSome = true →
    (protectSegments loadBase segments s h).2.layout.Permits (toGuestProtection g.pFlags) x := by
  induction segments generalizing s h with
  | nil => exact fun g hg => absurd hg (by simp)
  | cons g _ ih =>
    obtain ⟨hhead, htail⟩ := List.pairwise_cons.mp hdis
    have hfit' := fun g' hg' => hfit g' (List.mem_cons_of_mem _ hg')
    intro g' hg' hload' x hx hsome
    cases hload : g.loads with
    | false =>
      rw [protectSegments_skip hload]
      rcases List.mem_cons.mp hg' with rfl | hg'
      · rw [hload] at hload'
        cases hload'
      · exact ih hs hfit' htail g' hg' hload' x hx hsome
    | true =>
      obtain ⟨hinv, hgeo, hw⟩ := protect_segment hs h hload (hfit g (by simp) hload)
      rw [protectSegments_turn hload]
      rw [← hgeo] at hfit'
      rcases List.mem_cons.mp hg' with rfl | hg'
      · exact protectSegments_keeps hinv hfit' x _ (hw.permits_inside hx.1 hx.2 hsome)
          fun g'' hg'' hload'' => hhead g'' hg'' hload' hload'' x hx
      · refine ih hinv hfit' htail g' hg' hload' x hx ?_
        rw [hw.isSome_iff]
        exact hsome

end

/-- Protect moves no byte and no epoch, gives at least what it is asked for and
takes nothing beyond; and the loader's segments all end with their own flags. -/
theorem protect_frame (hs : s.ListInv) :
    (∀ (h : Host) (a n : UInt64) (p : Prot), a.toNat + n.toNat + s.page ≤ 2 ^ 64 →
      Widens p s.page a.toNat n.toNat s.layout (s.protect h a n p).space.layout) ∧
    ∀ (h : Host) (loadBase : UInt64) (segments : List Phdr),
      (∀ g ∈ segments, g.loads = true → g.Within loadBase s.page) →
      Phdr.Disjoint loadBase segments → ∀ g ∈ segments, g.loads = true → ∀ x, g.Has loadBase x →
        (s.layout.attr x).isSome = true → (protectSegments loadBase segments s h).2.layout.Permits
          (toGuestProtection g.pFlags) x :=
  ⟨fun h _ _ p hfit => protect_widens hs h p hfit,
    fun _ _ _ hfit hdis => protectSegments_permits hs hfit hdis⟩

/-- Code and data of a small program, 4KB each, in one host page. -/
def sharedPage : List Phdr :=
  [⟨kPtLoad, kPfRead ||| kPfExec, 0, 0, 0x1000, 0x1000⟩,
    ⟨kPtLoad, kPfRead ||| kPfWrite, 0x1000, 0x1000, 0x800, 0x1000⟩]

theorem protect_frame_sharedPage : Widens 1 0x4000 0x100011000 0x1000 onePage.space.layout
        (onePage.space.protect onePage.host 0x100011000 0x1000 1).space.layout ∧
      (protectSegments 0x100010000 sharedPage onePage.space onePage.host).2.layout.Permits
        5 0x100010000 := by
  obtain ⟨hone, hall⟩ := protect_frame listInv_onePage
  refine ⟨hone onePage.host 0x100011000 0x1000 1 (by decide), ?_⟩
  refine hall onePage.host 0x100010000 sharedPage ?_ ?_ ⟨kPtLoad, kPfRead ||| kPfExec, 0, 0, 0x1000,
    0x1000⟩ (by decide) (by decide) 0x100010000 (by unfold Phdr.Has; decide) (by decide)
  · unfold Phdr.Within
    decide
  · unfold Phdr.Disjoint sharedPage
    rw [List.pairwise_pair]
    intro _ _ x h1 h2
    exact absurd (Nat.lt_of_le_of_lt h2.1 h1.2) (by decide)

end GuestAddressSpace

end Fathom
