import Fathom.Proofs.Runs
import Fathom.Runtime.Syscalls

/-!
# What the host lets through

`GuestPointer` goes by what is recorded for a range: readable is enough. The emulator
then loads from it and stores into it, and whether that faults is up to the host's
protection of the page.
-/

namespace Fathom

open Lib Spanned GuestAddressSpace Geometry

theorem Prot.has_write_or (p : Prot) : (p ||| kGuestProtWrite).has kGuestProtWrite = true := by
  rw [Prot.has_or]
  simp [Prot.has, kGuestProtWrite]

theorem Prot.has_read_or_write (p : Prot) :
    (p ||| kGuestProtWrite).has kGuestProtRead = p.has kGuestProtRead := by
  rw [Prot.has_or, show Prot.has kGuestProtWrite kGuestProtRead = false from rfl, Bool.or_false]

theorem toHostProtection_both {p : Prot} (hr : p.has kGuestProtRead = true)
    (hw : p.has kGuestProtWrite = true) : toHostProtection p = protReadWrite := by
  rw [toHostProtection, hr, hw]
  rfl

namespace GuestAddressSpace

def Usable (s : GuestAddressSpace) (h : Host) : Prop :=
  ∀ x t, s.layout.attr x = some t → t.protection.has kGuestProtRead = true →
  ∀ y ∈ pageOf s.page x, h.prot y = protReadWrite

structure Fine (s : GuestAddressSpace) (h : Host) : Prop where
  sane : s.Sane
  succeeds : h.Succeeds
  usable : s.Usable h

def Outside (g : Geometry) (h h' : Host) : Prop :=
  ∀ y, ¬ (g.base.toNat ≤ y ∧ y < g.limit) → h'.prot y = h.prot y ∨ h'.prot y = protReadWrite

structure Carries (s : GuestAddressSpace) (h : Host) (s' : GuestAddressSpace) (h' : Host) :
    Prop where
  fine : s'.Fine h'
  geometry : s'.toGeometry = s.toGeometry
  outside : Outside s.toGeometry h h'

theorem Outside.refl (g : Geometry) (h : Host) : Outside g h h := fun _ _ => .inl rfl

theorem Outside.trans {g : Geometry} {h h' h'' : Host} (h₁ : Outside g h h')
    (h₂ : Outside g h' h'') : Outside g h h'' := by
  intro y hy
  rcases h₂ y hy with heq | hopen
  · rw [heq]
    exact h₁ y hy
  · exact .inr hopen

theorem Fine.carries {s : GuestAddressSpace} {h : Host} (hf : s.Fine h) : Carries s h s h :=
  ⟨hf, rfl, Outside.refl _ _⟩

theorem Carries.trans {s s' s'' : GuestAddressSpace} {h h' h'' : Host}
    (h₁ : Carries s h s' h') (h₂ : Carries s' h' s'' h'') : Carries s h s'' h'' := by
  refine ⟨h₂.fine, h₂.geometry.trans h₁.geometry, h₁.outside.trans ?_⟩
  rw [← h₁.geometry]
  exact h₂.outside

variable {s : GuestAddressSpace} {h : Host}

theorem Fine.opened (hf : s.Fine h) {h' : Host} (hh : h'.Succeeds)
    (hprot : ∀ y, h'.prot y = h.prot y ∨ h'.prot y = protReadWrite) : Carries s h s h' := by
  refine ⟨⟨hf.sane, hh, fun x t ht hr y hy => ?_⟩, rfl, fun y _ => hprot y⟩
  rcases hprot y with heq | hopen
  · rw [heq]
    exact hf.usable x t ht hr y hy
  · exact hopen

theorem Fine.notify (hf : s.Fine h) (b e : UInt64) : Carries s h (s.notify b e) h := by
  have hlay := notify_layout s b e
  have hgeo := (notify_fields s b e).1
  refine ⟨⟨⟨hf.sane.inv.notify b e, fun x t ht => ?_, fun x t ht => ?_⟩, hf.succeeds,
    fun x t ht => ?_⟩, hgeo, Outside.refl _ _⟩
  · rw [hlay] at ht
    rw [hgeo]
    exact hf.sane.arena x t ht
  · rw [hlay] at ht
    exact hf.sane.flagged x t ht
  · rw [hlay] at ht
    rw [hgeo]
    exact hf.usable x t ht

theorem page_outside {b e x y : Nat} (hb : s.page ∣ b) (he : s.page ∣ e)
    (hx : ¬ (b ≤ x ∧ x < e)) (hy : y ∈ pageOf s.page x) : ¬ (b ≤ y ∧ y < e) := fun hin =>
  hx (page_subset_span s.page_pos hb he hin (Eq.symm hy))

variable {p : Prot}

theorem Fine.allocate (hf : s.Fine h) {size hint : UInt64} (hfit : s.AllocFits size hint)
    (hw : p.has kGuestProtWrite = true) :
    Carries s h (s.allocate h size hint p).space (s.allocate h size hint p).host := by
  obtain ⟨hinv, hgeo, _⟩ := allocate_spec hf.sane.inv h p hfit
  rcases hf.sane.inv.allocate_cases h p hfit with ⟨_, heq⟩ | ⟨a, n, _, ht, heq, _⟩
  · rw [heq]
    exact hf.carries
  · rw [heq] at hinv hgeo ⊢
    obtain ⟨_, hlay, hcom⟩ := commitTaken_host hf.sane.inv hf.succeeds ht p
    obtain ⟨hlo, hhi⟩ := ht.mem_arena hf.sane.inv
    have hend : s.page ∣ a.toNat + n.toNat := Nat.dvd_add ht.start ht.length
    have hprot := hcom.prot
    have hframe := hcom.frame
    rw [roundDown_of_dvd ht.start, roundUp_of_dvd s.page_pos hend] at hprot hframe
    refine ⟨⟨hf.sane.placed hinv hgeo (flagged_newAttr _ p) hlo hhi hlay, hcom.succeeds,
      fun x t hx hr y hy => ?_⟩, hgeo, fun y hy => ?_⟩
    · rw [hgeo] at hy
      rw [hlay, Layout.place_attr] at hx
      split at hx
      next hin =>
        cases hx
        have hiny := page_subset_span s.page_pos ht.start hend hin hy
        rw [hprot y hiny.1 hiny.2]
        exact toHostProtection_both hr hw
      next hout =>
        rw [hframe y (page_outside ht.start hend hout hy)]
        exact hf.usable x t hx hr y hy
    · exact .inl (hframe y (by omega))

theorem Fixes.protection {b e : Nat} {s' : GuestAddressSpace} (hfix : Fixes p b e s s') (x : Nat)
    (t : Attr) (hb : b ≤ x) (he : x < e) (ht : s'.layout.attr x = some t) : t.protection = p := by
  cases hold : s.layout.attr x with
  | none => exact (hfix.fresh x t hb he hold ht).1
  | some u =>
    rw [hfix.owner x u hb he hold] at ht
    cases ht
    rfl

variable {a n : UInt64}

theorem Fine.commitFixed (hf : s.Fine h) (hpos : 0 < n.toNat) (hlo : s.base.toNat ≤ a.toNat)
    (hhi : a.toNat + n.toNat ≤ s.limit) (hw : p.has kGuestProtWrite = true) :
    Carries s h (s.commitFixed h a n p).space (s.commitFixed h a n p).host := by
  have hfix := commitFixed_spec hf.sane.inv h p hpos hlo hhi
  have hhost := (commitFixed_host hf.sane.inv _ p hpos hlo hhi hf.succeeds).2
  have hb := dvd_roundDown s.page a.toNat
  have he := dvd_roundUp s.page (a.toNat + n.toNat)
  have hlow := (le_roundDown_iff s.page_pos s.base_aligned).mpr hlo
  have hhigh := (roundUp_le_iff s.page_pos s.page_dvd_limit).mpr hhi
  generalize roundDown s.page a.toNat = b at *
  generalize roundUp s.page (a.toNat + n.toNat) = e at *
  refine ⟨⟨hf.sane.fixes hlow hhigh hfix, hhost.succeeds, fun x t hx hr y hy => ?_⟩,
    hfix.geometry, fun y hy => .inl (hhost.frame y (by omega))⟩
  rw [hfix.geometry] at hy
  by_cases hin : b ≤ x ∧ x < e
  · have hiny := page_subset_span s.page_pos hb he hin hy
    rw [hfix.protection x t hin.1 hin.2 hx] at hr
    rcases hhost.prot y hiny.1 hiny.2 with heq | ⟨_, heq⟩ | ⟨hno, _⟩
    · rw [heq]
      exact toHostProtection_both hr hw
    · exact heq
    · rw [hw] at hno
      cases hno
  · rw [(hfix.outside x hin).1] at hx
    rw [hhost.frame y (page_outside hb he hin hy)]
    exact hf.usable x t hx hr y hy

theorem Fine.release (hf : s.Fine h) (hfit : a.toNat + n.toNat + 4096 ≤ 2 ^ 64) :
    Carries s h (s.release h a n).space (s.release h a n).host := by
  rcases release_cases hfit with heq | ⟨hpos, hlo, hhi⟩
  · rw [heq]
    exact hf.carries
  · obtain ⟨_, hinv, hgeo, hlay⟩ := release_spec hf.sane.inv h hpos hlo hhi
    obtain ⟨hsucc, hprot⟩ := release_host hf.sane.inv _ hpos hlo hhi hf.succeeds
    have hold : ∀ x t, (s.release h a n).space.layout.attr x = some t →
        s.layout.attr x = some t := by
      intro x t hx
      rw [hlay, Layout.drop_attr] at hx
      split at hx
      · cases hx
      · exact hx
    refine ⟨⟨hf.sane.of_attr hinv hgeo fun x t hx => .inl (hold x t hx), hsucc,
      fun x t hx hr y hy => ?_⟩, hgeo, fun y hy => ?_⟩
    · rw [hgeo] at hy
      rcases hprot y with ⟨heq, _⟩ | ⟨_, hnone⟩
      · rw [heq]
        exact hf.usable x t (hold x t hx) hr y hy
      · rw [hnone x (Eq.symm hy)] at hx
        cases hx
    · exact (hprot y).imp And.left fun hin => absurd hin.1 hy

theorem protect_prot (hh : h.Succeeds) (a n : UInt64) (p : Prot) :
    (s.protect h a n p).host.Succeeds ∧ ∀ y, (s.protect h a n p).host.prot y = h.prot y ∨
    (s.protect h a n p).host.prot y = protReadWrite := by
  have hlocked : (s.protectLocked h a n p).host.Succeeds ∧
      ∀ y, (s.protectLocked h a n p).host.prot y = h.prot y ∨
        (s.protectLocked h a n p).host.prot y = protReadWrite := by
    unfold protectLocked
    dsimp only
    split
    · split
      · refine ⟨(hh.mprotect _ _ _).2, fun y => ?_⟩
        rw [hh.mprotect_prot]
        split
        · exact .inr rfl
        · exact .inl rfl
      · exact ⟨hh, fun _ => .inl rfl⟩
    · exact ⟨hh, fun _ => .inl rfl⟩
  unfold protect
  dsimp only
  split <;> exact hlocked

def Uncovers (s : GuestAddressSpace) (h : Host) (a n : UInt64) (p : Prot) : Prop :=
  p.has kGuestProtRead = true ∧ p.has kGuestProtWrite = false ∧
  ∃ x t, (roundDown s.page a.toNat ≤ x ∧ x < roundUp s.page (a.toNat + n.toNat)) ∧
  s.layout.attr x = some t ∧ ∃ y ∈ pageOf s.page x, h.prot y ≠ protReadWrite

theorem Fine.protect (hf : s.Fine h) (hfit : a.toNat + n.toNat + s.page ≤ 2 ^ 64)
    (hdeg : ¬ s.Degenerate a n) (hok : ¬ s.Uncovers h a n p) :
    Carries s h (s.protect h a n p).space (s.protect h a n p).host := by
  obtain ⟨hinv, hgeo, hre⟩ := protect_spec hf.sane.inv h p hfit hdeg
  obtain ⟨hsucc, hprot⟩ := protect_prot hf.succeeds a n p
  refine ⟨⟨hf.sane.reprotects hinv hgeo hre, hsucc, fun x t hx hr y hy => ?_⟩, hgeo,
    fun y _ => hprot y⟩
  rw [hgeo] at hy
  rcases hprot y with heq | hopen
  swap
  · exact hopen
  rw [heq]
  cases hold : s.layout.attr x with
  | none =>
    rw [hre.owners x hold] at hx
    cases hx
  | some u =>
    by_cases hin : roundDown s.page a.toNat ≤ x ∧ x < roundUp s.page (a.toNat + n.toNat)
    · obtain ⟨q, hq, hor⟩ := hre.inside x u hin.1 hin.2 hold
      rw [hq] at hx
      cases hx
      by_cases hru : u.protection.has kGuestProtRead = true
      · exact hf.usable x u hold hru y hy
      · -- The request must be what makes the byte readable.
        have hrp : p.has kGuestProtRead = true := by
          rcases hor with ⟨rfl, _⟩ | ⟨rfl, _⟩
          · exact hr
          · rw [Prot.has_or, Bool.or_eq_true] at hr
            exact hr.resolve_left hru
        by_contra hclosed
        cases hwp : p.has kGuestProtWrite with
        | false => exact hok ⟨hrp, hwp, x, u, hin, hold, y, hy, hclosed⟩
        | true =>
          have hcov : Covers s.committed x := by
            rw [← tagAt_isSome]
            exact Option.isSome_iff_exists.mpr ⟨u, hold⟩
          obtain ⟨_, hph⟩ := protectLocked_host hf.sane.inv hf.succeeds p hfit ⟨x, hin, hcov⟩
          have hiny := page_subset_span s.page_pos (dvd_roundDown s.page a.toNat)
            (dvd_roundUp s.page (a.toNat + n.toNat)) hin hy
          have hopen := hph.opened hwp y hiny.1 hiny.2
          have hsame : (s.protect h a n p).host = (s.protectLocked h a n p).host := by
            unfold GuestAddressSpace.protect
            dsimp only
            split <;> rfl
          rw [← hsame, heq] at hopen
          exact hclosed hopen
    · rw [hre.outside x hin] at hx
      exact hf.usable x t hx hr y hy

/-! ## A new mapping -/

structure Placed (s : GuestAddressSpace) (readable : Bool) (a n : UInt64) : Prop where
  pos : 0 < n.toNat
  low : s.base.toNat ≤ a.toNat
  high : a.toNat + n.toNat ≤ s.limit
  reads : ∀ x t, roundDown s.page a.toNat ≤ x → x < roundUp s.page (a.toNat + n.toNat) →
    s.layout.attr x = some t → t.protection.has kGuestProtRead = readable

variable {readable : Bool}

theorem Placed.notify (hp : s.Placed readable a n) (b e : UInt64) :
    (s.notify b e).Placed readable a n := by
  have hgeo := (notify_fields s b e).1
  refine ⟨hp.pos, ?_, ?_, ?_⟩
  · rw [hgeo]
    exact hp.low
  · rw [hgeo]
    exact hp.high
  · rw [hgeo, notify_layout]
    exact hp.reads

theorem allocate_placed (hs : s.ListInv) (h : Host) {size hint : UInt64} (p : Prot)
    (hfit : s.AllocFits size hint) (hne : (s.allocate h size hint p).ret ≠ 0) :
    Placed (s.allocate h size hint p).space (p.has kGuestProtRead)
      (s.allocate h size hint p).ret size := by
  obtain ⟨_, hgeo, hor⟩ := allocate_spec hs h p hfit
  rcases hor with ⟨h0, _⟩ | ⟨a, n, hn, ht, hret, hlay⟩
  · exact absurd h0 hne
  · rw [hret]
    obtain ⟨hlo, hhi⟩ := ht.mem_arena hs
    have hup := le_roundUp s.page_pos size.toNat
    have hspan : roundUp s.page (a.toNat + size.toNat) ≤ a.toNat + n.toNat :=
      (roundUp_le_iff s.page_pos (Nat.dvd_add ht.start ht.length)).mpr (by omega)
    refine ⟨hfit.pos, ?_, ?_, fun x t hx hx' htag => ?_⟩
    · rw [hgeo]
      exact hlo
    · rw [hgeo]
      omega
    · rw [hgeo] at hx hx'
      rw [roundDown_of_dvd ht.start] at hx
      rw [hlay, Layout.place_attr, if_pos (by omega)] at htag
      cases htag
      rfl

theorem commitFixed_placed (hs : s.ListInv) (h : Host) (p : Prot) (hpos : 0 < n.toNat)
    (hlo : s.base.toNat ≤ a.toNat) (hhi : a.toNat + n.toNat ≤ s.limit) :
    Placed (s.commitFixed h a n p).space (p.has kGuestProtRead) a n := by
  have hfix := commitFixed_spec hs h p hpos hlo hhi
  refine ⟨hpos, ?_, ?_, fun x t hx hx' htag => ?_⟩
  · rw [hfix.geometry]
    exact hlo
  · rw [hfix.geometry]
    exact hhi
  · rw [hfix.geometry] at hx hx'
    rw [hfix.protection x t hx hx' htag]

theorem Fine.placed_covers (hf : s.Fine h) (hp : s.Placed readable a n)
    (hr : p.has kGuestProtRead = readable) : ¬ s.Uncovers h a n p := by
  rintro ⟨hread, _, x, t, hx, htag, y, hy, hclosed⟩
  rw [hr] at hread
  refine hclosed (hf.usable x t htag ?_ y hy)
  rw [hp.reads x t hx.1 hx.2 htag, hread]

theorem Fine.mapped (hf : s.Fine h) (hp : s.Placed readable a n)
    {h' : Host} {p : HostProt} {len : Nat} (hh : h'.Succeeds) (ha : s.page ∣ a.toNat)
    (hlen : s.page ∣ len) (hle : len ≤ roundUp s.page n.toNat)
    (hprot : ∀ y, h'.prot y = if a.toNat ≤ y ∧ y < a.toNat + len then p else h.prot y)
    (hopen : readable = true → p = protReadWrite) : Carries s h s h' := by
  have hend : s.page ∣ a.toNat + len := Nat.dvd_add ha hlen
  have hup : a.toNat + roundUp s.page n.toNat = roundUp s.page (a.toNat + n.toNat) := by
    exact (roundUp_add_of_dvd s.page_pos ha n.toNat).symm
  have hhigh := (roundUp_le_iff s.page_pos s.page_dvd_limit).mpr hp.high
  have hlow := hp.low
  refine ⟨⟨hf.sane, hh, fun x t hx hr y hy => ?_⟩, rfl, fun y hy => .inl ?_⟩
  · rw [hprot y]
    by_cases hin : a.toNat ≤ x ∧ x < a.toNat + len
    · rw [if_pos (page_subset_span s.page_pos ha hend hin hy)]
      refine hopen ?_
      rw [← hp.reads x t (by rw [roundDown_of_dvd ha]; exact hin.1) (by omega) hx]
      exact hr
    · rw [if_neg (page_outside ha hend hin hy)]
      exact hf.usable x t hx hr y hy
  · rw [hprot y, if_neg (by omega)]

end GuestAddressSpace

/-! ## Taking views out -/

open Lib Spanned GuestAddressSpace

namespace SharedTable

/-- The host with a view copied out of it. -/
def unshared (h : Host) (low n : UInt64) : Host :=
  ((h.mprotect low n protRead).2.mapReadWrite low n).2.store low n (h.mprotect low n protRead).2.mem

theorem unshared_spec {h : Host} (hh : h.Succeeds) (low n : UInt64) :
    (unshared h low n).Succeeds ∧ ∀ y, (unshared h low n).prot y =
      if Host.inSpan low n y then protReadWrite else h.prot y := by
  have h₁ := (hh.mprotect low n protRead).2
  rw [unshared, h₁.mapReadWrite_eq]
  refine ⟨fun k hk => h₁ k (Nat.le_of_succ_le hk), fun y => ?_⟩
  change (if Host.inSpan low n y then protReadWrite else (h.mprotect low n protRead).2.prot y) = _
  rw [hh.mprotect_prot]
  split
  · rfl
  · rfl

theorem replaceSlots_hit {b e : UInt64} {h : Host} (hh : h.Succeeds) (page : UInt64)
    {slot : SharedMappingSlot} (hhit : ¬ slot.misses b e = true) (rest : List SharedMappingSlot) :
    let low := maskDown page (wordMax b slot.begin)
    let high := wordMin (maskUp page (wordMin e slot.stop)) slot.stop
    (replaceSlots b e page (slot :: rest) h).2 =
      (replaceSlots b e page rest (unshared h low (high - low))).2 := by
  intro low high
  rw [replaceSlots, if_neg hhit]
  dsimp only
  split
  · rfl
  next hno =>
    -- Nothing was left of the view to map over, and nothing to copy.
    have hzero : high - low = 0 := by_contra fun hne =>
      hno ((hh.mprotect low (high - low) protRead).2.mapReadWrite low (high - low) hne)
    rw [unshared, hzero, Host.store_zero]

theorem replaceSlots_host (b e page : UInt64) (slots : List SharedMappingSlot) :
    ∀ {h : Host}, h.Succeeds → (replaceSlots b e page slots h).2.Succeeds ∧
    ∀ y, (replaceSlots b e page slots h).2.prot y = h.prot y ∨
    (replaceSlots b e page slots h).2.prot y = protReadWrite := by
  induction slots with
  | nil =>
    intro h hh
    exact ⟨hh, fun _ => .inl rfl⟩
  | cons slot rest ih =>
    intro h hh
    by_cases hmiss : slot.misses b e = true
    · rw [replaceSlots, if_pos hmiss]
      exact ih hh
    · rw [replaceSlots_hit hh page hmiss]
      generalize maskDown page (wordMax b slot.begin) = low
      generalize wordMin (maskUp page (wordMin e slot.stop)) slot.stop - low = n
      obtain ⟨hout, hopened⟩ := unshared_spec hh low n
      obtain ⟨hsucc, hprot⟩ := ih hout
      refine ⟨hsucc, fun y => ?_⟩
      rcases hprot y with heq | hopen
      · rw [heq, hopened]
        split
        · exact .inr rfl
        · exact .inl rfl
      · exact .inr hopen

theorem replaceSlots_any (b e page : UInt64) (f : SharedMappingSlot → Bool)
    {slots : List SharedMappingSlot} :
    ∀ {h : Host}, ((replaceSlots b e page slots h).1.any fun s => s.stop != 0 && f s) = true →
      (∀ s : SharedMappingSlot, f { s with stop := 0 } = f s) →
      (slots.any fun s => s.stop != 0 && f s) = true := by
  induction slots with
  | nil =>
    intro h hany _
    exact hany
  | cons _ _ ih =>
    intro h hany hf
    rw [List.any_cons, Bool.or_eq_true]
    rw [replaceSlots] at hany
    split at hany
    · rw [List.any_cons, Bool.or_eq_true] at hany
      exact hany.imp_right fun hr => ih hr hf
    · dsimp only at hany
      split at hany
      · rw [List.any_cons, Bool.or_eq_true] at hany
        rcases hany with hs | hr
        · split at hs
          · simp at hs
          · exact .inl hs
        · exact .inr (ih hr hf)
      · rw [List.any_cons, Bool.or_eq_true] at hany
        exact hany.imp_right fun hr => ih hr hf

theorem written_of_replaced (t : SharedTable) (b e page : UInt64) (h : Host) (file : HostFile)
    (hw : (t.replaceSharedMappingsIn b e page h).1.fileIsWrittenThroughSharedMapping file
      = true) : t.fileIsWrittenThroughSharedMapping file = true := by
  unfold replaceSharedMappingsIn at hw
  split at hw
  · exact hw
  · unfold fileIsWrittenThroughSharedMapping at hw ⊢
    rw [Bool.or_eq_true] at hw ⊢
    refine hw.imp_right fun hany => ?_
    simp only [Bool.and_assoc] at hany ⊢
    exact replaceSlots_any b e page
      (fun s => s.writable && (s.device == file.device && s.inode == file.inode)) hany fun _ => rfl

end SharedTable

namespace Sys

/-! ## What the contents leave alone -/

section Frame

variable (x : Sys) (r : MmapRequest) (placed : UInt64)

@[simp] theorem mmapNoteImage_space : (x.mmapNoteImage r placed).space = x.space := by
  unfold mmapNoteImage
  split <;> rfl

@[simp] theorem mmapNoteImage_host : (x.mmapNoteImage r placed).host = x.host := by
  unfold mmapNoteImage
  split <;> rfl

@[simp] theorem mmapNoteImage_shared : (x.mmapNoteImage r placed).shared = x.shared := by
  unfold mmapNoteImage
  split <;> rfl

@[simp] theorem mmapZero_process (low high : UInt64) :
    (x.mmapZero r placed low high).process = x.process := by
  unfold mmapZero
  dsimp only
  split <;> rfl

@[simp] theorem mmapClear_process (stale : UInt64 × UInt64) :
    (x.mmapClear r placed stale).process = x.process := by
  unfold mmapClear
  rw [mmapZero_process, mmapZero_process]
  split <;> rfl

theorem foldl_mmapClear_process (stale : List (UInt64 × UInt64)) :
    (stale.foldl (fun x piece => x.mmapClear r placed piece) x).process = x.process := by
  induction stale generalizing x with
  | nil => rfl
  | cons piece _ ih => exact (ih _).trans (mmapClear_process x r placed piece)

@[simp] theorem mmapAnonymous_process (stale : List (UInt64 × UInt64)) :
    (x.mmapAnonymous r placed stale).process = x.process := by
  unfold mmapAnonymous
  rw [mmapZero_process, mmapZero_process, foldl_mmapClear_process]

end Frame

/-! ## One call of the arena's -/

def Fine (x : Sys) : Prop := x.space.Fine x.host

def Carries (x x' : Sys) : Prop := GuestAddressSpace.Carries x.space x.host x'.space x'.host

theorem Carries.trans {x x' x'' : Sys} (h₁ : x.Carries x') (h₂ : x'.Carries x'') :
    x.Carries x'' := GuestAddressSpace.Carries.trans h₁ h₂

variable {x : Sys}

section

variable (hf : x.Fine)
include hf

theorem Fine.refl : x.Carries x := GuestAddressSpace.Fine.carries hf

theorem Fine.opened {x' : Sys} (hspace : x'.space = x.space) (hh : x'.host.Succeeds)
    (hprot : ∀ y, x'.host.prot y = x.host.prot y ∨ x'.host.prot y = protReadWrite) :
    x.Carries x' := by
  unfold Carries
  rw [hspace]
  exact GuestAddressSpace.Fine.opened hf hh hprot

theorem Fine.same {x' : Sys} (hspace : x'.space = x.space) (hhost : x'.host = x.host) :
    x.Carries x' :=
  hf.opened hspace (by rw [hhost]; exact hf.succeeds) fun y => .inl (by rw [hhost])

theorem Fine.store (a n : UInt64) (bytes : Nat → UInt8) : x.Carries (x.store a n bytes) :=
  hf.opened rfl hf.succeeds fun _ => .inl rfl

theorem Fine.replaceShared (b e : UInt64) : x.Carries (x.replaceSharedMappingsIn b e) := by
  have hslots := SharedTable.replaceSlots_host b e x.space.pageSize x.shared.slots hf.succeeds
  unfold replaceSharedMappingsIn SharedTable.replaceSharedMappingsIn
  split
  · exact hf.same rfl rfl
  · exact hf.opened rfl hslots.1 hslots.2

theorem Fine.notifyContents (b e : UInt64) : x.Carries (x.notifyContentsReplaced b e) := by
  unfold notifyContentsReplaced
  split
  · exact GuestAddressSpace.Fine.notify hf b e
  · exact hf.refl

theorem Fine.allocate {size hint : UInt64} (hfit : x.space.AllocFits size hint) {p : Prot}
    (hw : p.has kGuestProtWrite = true) : x.Carries (x.allocate size hint p).2 :=
  GuestAddressSpace.Fine.allocate hf hfit hw

theorem Fine.release {a n : UInt64} (hfit : a.toNat + n.toNat + 4096 ≤ 2 ^ 64) :
    x.Carries (x.release a n).2 :=
  GuestAddressSpace.Fine.release hf hfit

theorem Fine.dropPages (a n : UInt64) :
    x.Carries { x with host := x.space.dropPages x.host a n } := by
  have hh : x.host.Succeeds := hf.succeeds
  unfold GuestAddressSpace.dropPages
  dsimp only
  split
  · exact hf.same rfl rfl
  · have h₁ := hh.mapFresh (x.space.alignUp a) (x.space.alignDown (a + n) - x.space.alignUp a)
    rw [if_pos h₁.1]
    refine hf.opened rfl (h₁.2.mprotect _ _ _).2 fun y => ?_
    rw [h₁.2.mprotect_prot, hh.mapFresh_prot]
    split
    · exact .inr rfl
    · exact .inl rfl

end

def withHeapLimit (x : Sys) (heapLimit : UInt64) : Sys :=
  { x with process := { x.process with
      syscalls := { x.process.syscalls with heapLimit } } }

theorem dvd_maskDown (x : Sys) (v : UInt64) :
    x.space.page ∣ (maskDown x.space.pageSize v).toNat := by
  rw [show (maskDown x.space.pageSize v).toNat = _ from toNat_alignDown x.space v]
  exact dvd_roundDown _ _

theorem dvd_maskUp (x : Sys) (v : UInt64) : x.space.page ∣ (maskUp x.space.pageSize v).toNat :=
  x.dvd_maskDown (v + x.space.pageSize - 1)

theorem shrinkHeapBelow_cases (x : Sys) (a : UInt64) : x.shrinkHeapBelow a = x ∨
      ∃ start : UInt64, x.process.syscalls.heapBase ≠ 0 ∧
        ((maskUp x.space.pageSize (x.toHost x.process.syscalls.heapBreak)).toNat ≤ start.toNat ∧
          x.space.page ∣ start.toNat) ∧
        start.toNat < (x.toHost x.process.syscalls.heapLimit).toNat ∧
        let n := x.toHost x.process.syscalls.heapLimit - start
        (((x.release start n).1 = false ∧ x.shrinkHeapBelow a = (x.release start n).2) ∨
          ((x.release start n).1 = true ∧ x.shrinkHeapBelow a =
            (x.release start n).2.withHeapLimit (x.process.syscalls.heapLimit - n))) := by
  have hmax := toNat_wordMax (maskDown x.space.pageSize a)
    (maskUp x.space.pageSize (x.toHost x.process.syscalls.heapBreak))
  have hdvd : x.space.page ∣ (wordMax (maskDown x.space.pageSize a)
      (maskUp x.space.pageSize (x.toHost x.process.syscalls.heapBreak))).toNat := by
    unfold wordMax
    split
    · exact x.dvd_maskUp _
    · exact x.dvd_maskDown _
  unfold shrinkHeapBelow
  dsimp only
  generalize wordMax (maskDown x.space.pageSize a)
    (maskUp x.space.pageSize (x.toHost x.process.syscalls.heapBreak)) = start at hmax hdvd ⊢
  split
  · exact .inl rfl
  next hne =>
    split
    · exact .inl rfl
    · split
      next hlt =>
        refine .inr ⟨start, hne, ⟨by omega, hdvd⟩, hlt, ?_⟩
        split
        next hok => exact .inr ⟨hok, rfl⟩
        next hno => exact .inl ⟨Bool.eq_false_iff.mpr hno, rfl⟩
      · exact .inl rfl

def HeapFits (x : Sys) : Prop :=
  x.process.syscalls.heapBase = 0 ∨ (x.toHost x.process.syscalls.heapLimit).toNat + 4096 ≤ 2 ^ 64

section

variable {heapBreak heapLimit start : UInt64}
  (hstop : heapLimit.toNat + x.process.syscalls.guestBase.toNat ≤ x.space.limit)
include hstop

theorem toHost_heap {v : UInt64} (hv : v.toNat ≤ heapLimit.toNat) :
    (x.toHost v).toNat = v.toNat + x.process.syscalls.guestBase.toNat := by
  have hlimit := x.space.limit_lt
  exact toNat_add_of_lt (by omega)

/-- What is given up lies between the break and the limit, and the limit goes down to it. -/
theorem shrink_numbers (hroom : heapBreak.toNat ≤ heapLimit.toNat)
    (hused : (maskUp x.space.pageSize (x.toHost heapBreak)).toNat ≤ start.toNat)
    (hlt : start.toNat < (x.toHost heapLimit).toNat) :
    let n := x.toHost heapLimit - start
    heapBreak.toNat + x.process.syscalls.guestBase.toNat ≤ start.toNat ∧
    start.toNat + n.toNat = heapLimit.toNat + x.process.syscalls.guestBase.toNat ∧
    (heapLimit - n).toNat + x.process.syscalls.guestBase.toNat = start.toNat ∧ 0 < n.toNat := by
  have hpages := x.space.limit_add_page
  have hlimit := toHost_heap hstop le_rfl
  have hbreak := toHost_heap hstop hroom
  have hround : (maskUp x.space.pageSize (x.toHost heapBreak)).toNat =
      roundUp x.space.page (x.toHost heapBreak).toNat := toNat_alignUp (by omega)
  have hup := le_roundUp x.space.page_pos (x.toHost heapBreak).toNat
  have hsub := toNat_sub_of_le hlt.le
  have hnew := toNat_sub_of_le (a := heapLimit) (b := x.toHost heapLimit - start) (by omega)
  refine ⟨by omega, by omega, by omega, by omega⟩

end

/-- What a release keeps, and is not about the heap's limit, shrinking the heap keeps. -/
theorem shrinkHeapBelow_keeps {P : Sys → Prop} (hheap : x.HeapFits) (a : UInt64) (hsame : P x)
    (hrelease : ∀ {a n : UInt64}, a.toNat + n.toNat + 4096 ≤ 2 ^ 64 → P (x.release a n).2)
    (hlimit : ∀ x' limit, P x' → P (x'.withHeapLimit limit)) : P (x.shrinkHeapBelow a) := by
  rcases shrinkHeapBelow_cases x a with heq | ⟨start, hne, _, hlt, hcases⟩
  · rw [heq]
    exact hsame
  · have hlim := hheap.resolve_left hne
    have hsub := toNat_sub_of_le hlt.le
    have hrel := @hrelease start (x.toHost x.process.syscalls.heapLimit - start) (by omega)
    rcases hcases with ⟨_, heq⟩ | ⟨_, heq⟩
    · rw [heq]
      exact hrel
    · rw [heq]
      exact hlimit _ _ hrel

theorem Fine.shrinkHeap (hf : x.Fine) (hheap : x.HeapFits) (a : UInt64) :
    x.Carries (x.shrinkHeapBelow a) :=
  shrinkHeapBelow_keeps hheap a hf.refl hf.release fun _ _ h => h

/-! ## Placing a mapping -/

theorem toHost_toGuest (x : Sys) (a : UInt64) : x.toHost (x.toGuest a) = a :=
  UInt64.sub_add_cancel _ _

def mmapAddress (x : Sys) (r : MmapRequest) : UInt64 :=
  if r.address != 0 then x.toHost r.address else 0

variable {r : MmapRequest} {stale : List (UInt64 × UInt64)}

theorem doMmap_refused (hlen : r.length ≠ 0) {x₁ : Sys}
    (h : x.mmapPlace r (x.mmapAddress r) = (none, stale, x₁)) :
    x.doMmap r = ⟨.error enomem, x₁⟩ := by
  unfold mmapAddress at h
  unfold doMmap
  rw [if_neg hlen]
  dsimp only
  rw [h]

variable {placed : UInt64}

theorem doMmap_placed (hlen : r.length ≠ 0) {x₁ : Sys}
    (h : x.mmapPlace r (x.mmapAddress r) = (some placed, stale, x₁)) : x.doMmap r = if r.anonymous
      then ((x₁.mmapNoteImage r placed).mmapAnonymous r placed stale).mmapFinish r placed
      else (x₁.mmapNoteImage r placed).mmapDescriptor r placed := by
  unfold mmapAddress at h
  unfold doMmap
  rw [if_neg hlen]
  dsimp only
  rw [h]

structure MmapFits (x : Sys) (r : MmapRequest) : Prop where
  heap : x.HeapFits
  fixed : r.fixed = true → x.mmapAddress r ≠ 0 → (x.mmapAddress r).toNat + r.length.toNat < 2 ^ 64
  free : r.fixed = false ∨ x.mmapAddress r = 0 → r.length.toNat + 2 * x.space.page ≤ 2 ^ 64 ∧
      roundDown x.space.page (x.mmapAddress r).toNat + roundUp x.space.page r.length.toNat < 2 ^ 64

def ReadOnlyView (x : Sys) (r : MmapRequest) : Prop :=
  r.anonymous = false ∧ r.viewWritable = false ∧ r.recorded.has kGuestProtRead = true ∧
  (r.fixed = true → r.offset % x.space.pageSize = 0 ∧
    (x.mmapAddress r = 0 ∨ x.mmapAddress r % x.space.pageSize = 0)) ∧
  ∃ file, r.file = some file ∧ file.isFramebuffer = false ∧
    (r.wantsShared = true ∨ x.shared.fileIsWrittenThroughSharedMapping file.host = true) ∧
    r.offset - r.offset % x.space.pageSize < file.host.size

theorem contains_mem {address size : UInt64} (hfit : address.toNat + size.toNat < 2 ^ 64) :
    x.space.contains address size = true →
    x.space.base.toNat ≤ address.toNat ∧ address.toNat + size.toNat ≤ x.space.limit := by
  intro hc
  unfold contains at hc
  simp only [Bool.and_eq_true, decide_eq_true_eq, UInt64.le_iff_toNat_le] at hc
  rw [toNat_add_of_lt hfit, toNat_add_of_lt x.space.fits] at hc
  exact ⟨hc.1.1, hc.2⟩

structure Places (x : Sys) (r : MmapRequest) (address : UInt64)
    (out : Option UInt64 × List (UInt64 × UInt64) × Sys) : Prop where
  carries : x.Carries out.2.2
  written : ∀ file, out.2.2.shared.fileIsWrittenThroughSharedMapping file = true →
    x.shared.fileIsWrittenThroughSharedMapping file = true
  placed : ∀ a, out.1 = some a → out.2.2.space.Placed (r.recorded.has kGuestProtRead) a r.length ∧
      (r.fixed = true → address ≠ 0 → a = address)

theorem shrinkHeapBelow_shared (x : Sys) (a : UInt64) :
    (x.shrinkHeapBelow a).shared = x.shared := by
  rcases shrinkHeapBelow_cases x a with heq | ⟨_, _, _, _, ⟨_, heq⟩ | ⟨_, heq⟩⟩
  · rw [heq]
  · rw [heq]
    rfl
  · rw [heq]
    rfl

theorem Fine.mmapPlace_fixed (hf : x.Fine) (hpos : 0 < r.length.toNat) (hfixed : r.fixed = true)
    (haddr : x.mmapAddress r ≠ 0) (hfit : x.MmapFits r) :
    x.Places r (x.mmapAddress r) (x.mmapPlace r (x.mmapAddress r)) := by
  unfold Sys.mmapPlace
  rw [if_pos (by simp [hfixed, haddr])]
  have hsum := hfit.fixed hfixed haddr
  generalize x.mmapAddress r = a at *
  dsimp only
  split
  · exact ⟨hf.refl, fun _ => id, fun _ h => (nomatch h)⟩
  next hc =>
    rw [Bool.not_eq_true', Bool.not_eq_false] at hc
    obtain ⟨hlo, hhi⟩ := contains_mem hsum hc
    have hshared := hf.replaceShared a (a + r.length)
    have hwritten : ∀ file, (x.replaceSharedMappingsIn a
        (a + r.length)).shared.fileIsWrittenThroughSharedMapping file = true →
        x.shared.fileIsWrittenThroughSharedMapping file = true := fun file =>
      SharedTable.written_of_replaced _ _ _ _ _ file
    have hsp : (x.replaceSharedMappingsIn a (a + r.length)).space = x.space := rfl
    generalize x.replaceSharedMappingsIn a (a + r.length) = x₁ at *
    have hp := commitFixed_placed hshared.fine.sane.inv x₁.host (a := a)
      (r.recorded ||| kGuestProtWrite) hpos (by rw [hsp]; exact hlo) (by rw [hsp]; exact hhi)
    have hcommit : x₁.Carries (x₁.commitFixed a r.length (r.recorded ||| kGuestProtWrite)).2 :=
      GuestAddressSpace.Fine.commitFixed hshared.fine hpos (by rw [hsp]; exact hlo)
        (by rw [hsp]; exact hhi) (Prot.has_write_or _)
    rw [Prot.has_read_or_write] at hp
    have hall := hshared.trans hcommit
    split
    · refine ⟨?_, ?_, fun b hb => ⟨?_, fun _ _ => ?_⟩⟩
      · dsimp only
        split
        · exact hall.trans (Fine.notifyContents hcommit.fine _ _)
        · exact hall
      · unfold notifyContentsReplaced
        split_ifs <;> exact hwritten
      · cases hb
        dsimp only
        unfold notifyContentsReplaced
        split_ifs
        · exact hp.notify _ _
        · exact hp
        · exact hp
      · cases hb
        rfl
    · exact ⟨hall, hwritten, fun _ h => (nomatch h)⟩

theorem Fine.mmapPlace_free (hf : x.Fine) (hpos : 0 < r.length.toNat)
    (hfree : r.fixed = false ∨ x.mmapAddress r = 0) (hfit : x.MmapFits r) :
    x.Places r (x.mmapAddress r) (x.mmapPlace r (x.mmapAddress r)) := by
  unfold Sys.mmapPlace
  rw [if_neg (by
    rcases hfree with h | h
    · simp [h]
    · simp [h])]
  obtain ⟨hlen, hreach⟩ := hfit.free hfree
  have hno : r.fixed = true → x.mmapAddress r ≠ 0 → False := by
    intro hfixed haddr
    rcases hfree with h | h
    · rw [hfixed] at h
      cases h
    · exact haddr h
  generalize x.mmapAddress r = a at *
  have hshrunk : x.Carries (if a != 0 then x.shrinkHeapBelow a else x) ∧
      (if a != 0 then x.shrinkHeapBelow a else x).shared = x.shared := by
    split
    · exact ⟨hf.shrinkHeap hfit.heap a, shrinkHeapBelow_shared x a⟩
    · exact ⟨hf.refl, rfl⟩
  dsimp only
  generalize (if a != 0 then x.shrinkHeapBelow a else x) = x₁ at hshrunk ⊢
  obtain ⟨hcar, hsh⟩ := hshrunk
  have hfits : x₁.space.AllocFits r.length a := by
    refine ⟨hpos, ?_, ?_⟩
    · rw [congrArg page hcar.geometry]
      omega
    · rw [congrArg page hcar.geometry]
      exact hreach
  have halloc := Fine.allocate hcar.fine hfits (Prot.has_write_or r.recorded)
  have hwritten : ∀ file, (x₁.allocate r.length a
      (r.recorded ||| kGuestProtWrite)).2.shared.fileIsWrittenThroughSharedMapping file = true →
      x.shared.fileIsWrittenThroughSharedMapping file = true := fun file hw => by
    rw [← hsh]
    exact hw
  split
  · exact ⟨hcar.trans halloc, hwritten, fun _ h => (nomatch h)⟩
  next hne =>
    have hp := allocate_placed hcar.fine.sane.inv x₁.host (r.recorded ||| kGuestProtWrite) hfits hne
    rw [Prot.has_read_or_write] at hp
    refine ⟨hcar.trans halloc, hwritten, fun b hb => ⟨?_, fun h₁ h₂ => (hno h₁ h₂).elim⟩⟩
    cases hb
    exact hp

/-! ## Its contents -/

structure Fills (x x' : Sys) : Prop where
  carries : x.Carries x'
  space : x'.space = x.space

theorem Fills.trans {x' x'' : Sys} (h₁ : x.Fills x') (h₂ : x'.Fills x'') : x.Fills x'' :=
  ⟨h₁.carries.trans h₂.carries, h₂.space.trans h₁.space⟩

theorem Fine.fills_refl (hf : x.Fine) : x.Fills x := ⟨hf.refl, rfl⟩

section

variable (hf : x.Fine) (r : MmapRequest)
include hf

theorem Fine.noteImage (placed : UInt64) :
    x.Fills (x.mmapNoteImage r placed) ∧ (x.mmapNoteImage r placed).shared = x.shared := by
  unfold mmapNoteImage
  split
  · exact ⟨⟨hf.same rfl rfl, rfl⟩, rfl⟩
  · exact ⟨hf.fills_refl, rfl⟩

theorem Fine.zero (placed low high : UInt64) : x.Fills (x.mmapZero r placed low high) := by
  unfold mmapZero
  dsimp only
  split
  · exact ⟨hf.store _ _ _, rfl⟩
  · exact hf.fills_refl

theorem Fine.clear (placed : UInt64)
    (stale : UInt64 × UInt64) : x.Fills (x.mmapClear r placed stale) := by
  unfold mmapClear
  dsimp only
  generalize maskUp x.space.pageSize stale.1 = low
  generalize maskDown x.space.pageSize stale.2 = high
  have hdrop : x.Fills (if high > low
      then { x with host := x.space.dropPages x.host low (high - low) } else x) := by
    split
    · exact ⟨hf.dropPages _ _, rfl⟩
    · exact hf.fills_refl
  have hzero := Fine.zero hdrop.carries.fine r placed (maskDown x.space.pageSize stale.1)
    (wordMin low stale.2)
  exact (hdrop.trans hzero).trans (Fine.zero hzero.carries.fine r placed _ _)

end

theorem Fine.clearAll (r : MmapRequest) (placed : UInt64) (stale : List (UInt64 × UInt64)) :
    ∀ {x : Sys}, x.Fine → x.Fills (stale.foldl (fun x piece => x.mmapClear r placed piece) x) := by
  induction stale with
  | nil =>
    intro x hf
    exact hf.fills_refl
  | cons piece _ ih =>
    intro x hf
    have hclear := hf.clear r placed piece
    exact hclear.trans (ih hclear.carries.fine)

theorem Fine.anonymous (hf : x.Fine) (r : MmapRequest) (placed : UInt64)
    (stale : List (UInt64 × UInt64)) : x.Fills (x.mmapAnonymous r placed stale) := by
  have hclear := Fine.clearAll r placed stale hf
  have hzero := Fine.zero hclear.carries.fine r placed placed
    (wordMin (maskUp x.space.pageSize placed) (placed + r.length))
  exact (hclear.trans hzero).trans (Fine.zero hzero.carries.fine r placed _ _)

/-! ## Its end -/

theorem Fine.finish (hf : x.Fine)
    (hp : x.space.Placed (r.recorded.has kGuestProtRead) placed r.length) :
    x.Carries (x.mmapFinish r placed).sys := by
  have hroom := limit_add_page x.space.toGeometry
  have hhigh := hp.high
  have hdone : x.Carries (if r.recorded.has kGuestProtWrite then x
      else (x.protect placed r.length r.recorded).2) := by
    split
    · exact hf.refl
    · refine GuestAddressSpace.Fine.protect hf (by omega) (fun hdeg => ?_)
        (GuestAddressSpace.Fine.placed_covers hf hp rfl)
      have := hp.pos
      have := hdeg.1
      omega
  exact hdone.trans (Fine.same hdone.fine rfl rfl)

theorem copyLoop_host (r : MmapRequest) (file : HostFile) (placed : UInt64) (fuel : Nat) :
    ∀ (k : Nat) (done : UInt64) (h : Host), let h' := copyLoop r file placed fuel k done h
      h'.prot = h.prot ∧ h'.answers = h.answers ∧ h'.calls = h.calls := by
  induction fuel with
  | zero =>
    intro k done h
    exact ⟨rfl, rfl, rfl⟩
  | succ _ ih =>
    intro k done h
    rw [copyLoop]
    split
    · dsimp only
      split
      · exact ⟨rfl, rfl, rfl⟩
      · exact ih _ _ _
    · exact ⟨rfl, rfl, rfl⟩

theorem Fine.copy (hf : x.Fine)
    (hp : x.space.Placed (r.recorded.has kGuestProtRead) placed r.length) (file : HostFile) :
    x.Carries (x.mmapCopy r file placed).sys := by
  obtain ⟨hprot, hanswers, hcalls⟩ := copyLoop_host r file placed r.length.toNat 0 0 x.host
  unfold mmapCopy
  generalize copyLoop r file placed r.length.toNat 0 0 x.host = h' at *
  have hread : x.Carries { x with host := h' } := by
    refine hf.opened rfl ?_ fun y => .inl (congrFun hprot y)
    unfold Host.Succeeds
    rw [hanswers, hcalls]
    exact hf.succeeds
  exact hread.trans (Fine.finish hread.fine hp)

variable {readable : Bool} {n : UInt64}

theorem Fine.drop (hf : x.Fine) (hp : x.space.Placed readable placed n) :
    x.Carries (x.release placed n).2 := by
  have hroom := limit_add_page x.space.toGeometry
  have hhigh := hp.high
  have := Nat.le_of_dvd x.space.page_pos x.space.guestPage_dvd_page
  exact hf.release (by omega)

/-! ## Views -/

def viewPlace (x : Sys) (r : MmapRequest) (placed : UInt64) : UInt64 × Sys :=
  if r.offset % x.space.pageSize != 0
  then ((x.release placed r.length).2).allocate (r.length + r.offset % x.space.pageSize) 0
    (r.recorded ||| kGuestProtWrite)
  else (placed, x)

theorem viewPlace_whole (placed : UInt64) (h0 : r.offset % x.space.pageSize = 0) :
    x.viewPlace r placed = (placed, x) := if_neg (by simp [h0])

theorem viewPlace_phased (placed : UInt64) (h0 : r.offset % x.space.pageSize ≠ 0) :
    x.viewPlace r placed = ((x.release placed r.length).2).allocate
      (r.length + r.offset % x.space.pageSize) 0 (r.recorded ||| kGuestProtWrite) :=
  if_pos (by simpa using h0)

theorem toNat_phase_lt (r : MmapRequest) : (r.offset % x.space.pageSize).toNat < x.space.page := by
  exact Nat.mod_lt _ x.space.page_pos

theorem toNat_phased (hlen : r.length.toNat + 2 * x.space.page ≤ 2 ^ 64) :
    (r.length + r.offset % x.space.pageSize).toNat =
      r.length.toNat + (r.offset % x.space.pageSize).toNat := by
  have hphase := toNat_phase_lt (x := x) r
  exact toNat_add_of_lt (by omega)

theorem Fine.replaced (hf : x.Fine) (hp : x.space.Placed readable placed n) {m : UInt64}
    (hpos : 0 < m.toNat) (hm : m.toNat + x.space.page ≤ 2 ^ 64) :
    let out := ((x.release placed n).2).allocate m 0 (r.recorded ||| kGuestProtWrite)
    x.Carries out.2 ∧ (out.1 ≠ 0 → out.2.space.Placed (r.recorded.has kGuestProtRead) out.1 m) := by
  have hdrop := hf.drop hp
  have hpage : (x.release placed n).2.space.page = x.space.page :=
    congrArg page hdrop.geometry
  have hfits : (x.release placed n).2.space.AllocFits m 0 :=
    allocFits_unhinted hpos (by rw [hpage]; exact hm)
  refine ⟨hdrop.trans (Fine.allocate hdrop.fine hfits (Prot.has_write_or _)), fun hne => ?_⟩
  have hnew := allocate_placed hdrop.fine.sane.inv (x.release placed n).2.host
    (r.recorded ||| kGuestProtWrite) hfits hne
  rw [Prot.has_read_or_write] at hnew
  exact hnew

theorem Fine.viewPlace (hf : x.Fine)
    (hp : x.space.Placed (r.recorded.has kGuestProtRead) placed r.length)
    (hlen : r.offset % x.space.pageSize ≠ 0 → r.length.toNat + 2 * x.space.page ≤ 2 ^ 64) :
    x.Carries (x.viewPlace r placed).2 ∧
    (¬ (r.offset % x.space.pageSize ≠ 0 ∧ (x.viewPlace r placed).1 = 0) →
      (x.viewPlace r placed).2.space.Placed (r.recorded.has kGuestProtRead)
        (x.viewPlace r placed).1 (r.length + r.offset % x.space.pageSize)) := by
  have hphase := toNat_phase_lt (x := x) r
  unfold Sys.viewPlace
  by_cases h0 : r.offset % x.space.pageSize = 0
  · rw [h0, UInt64.add_zero]
    exact ⟨hf.refl, fun _ => hp⟩
  · have hroom := hlen h0
    have hpos := hp.pos
    have hsum := toNat_phased hroom
    rw [if_pos (by simpa using h0)]
    obtain ⟨hcar, hnew⟩ := hf.replaced hp
      (m := r.length + r.offset % x.space.pageSize) (by omega) (by omega)
    exact ⟨hcar, fun hno => hnew fun hz => hno ⟨h0, hz⟩⟩

def viewLength (page n afterOffset : UInt64) : UInt64 :=
  wordMin (maskUp page n) (maskUp page afterOffset)

theorem toNat_viewLength (afterOffset : UInt64) (hn : n.toNat + x.space.page ≤ 2 ^ 64) :
    x.space.page ∣ (viewLength x.space.pageSize n afterOffset).toNat ∧
    (viewLength x.space.pageSize n afterOffset).toNat ≤ roundUp x.space.page n.toNat := by
  have hmask : (maskUp x.space.pageSize n).toNat = roundUp x.space.page n.toNat :=
    toNat_alignUp hn
  unfold viewLength wordMin
  split
  next hlt =>
    rw [UInt64.lt_iff_toNat_lt] at hlt
    exact ⟨x.dvd_maskUp _, by omega⟩
  · exact ⟨x.dvd_maskUp _, by omega⟩

theorem Fine.view (hf : x.Fine) {base afterOffset : UInt64} (hp : x.space.Placed readable base n)
    (w : Bool) (bytes : Nat → UInt8)
    (hopen : readable = true → base % x.space.pageSize = 0 → w = true) :
    x.Carries { x with host := (x.host.mapFile x.space.pageSize base
      (viewLength x.space.pageSize n afterOffset) ⟨true, w⟩ bytes).2 } := by
  have hh : x.host.Succeeds := hf.succeeds
  have hhigh := hp.high
  have hroom := limit_add_page x.space.toGeometry
  obtain ⟨hdvd, hle⟩ := toNat_viewLength (x := x) (n := n) afterOffset (by omega)
  generalize viewLength x.space.pageSize n afterOffset = len at *
  obtain ⟨hok, hsucc⟩ := hh.mapFile x.space.pageSize base len ⟨true, w⟩ bytes
  have hprot := x.host.mapFile_prot x.space.pageSize base len ⟨true, w⟩ bytes
  by_cases hal : base % x.space.pageSize = 0
  · have hbase : x.space.page ∣ base.toNat := by
      have := congrArg UInt64.toNat hal
      exact Nat.dvd_of_mod_eq_zero this
    refine GuestAddressSpace.Fine.mapped hf hp (p := ⟨true, w⟩) hsucc hbase hdvd hle
      (fun y => ?_) fun hr => ?_
    · rw [hprot y]
      simp [hok.mpr hal, Host.inSpan_iff]
    · rw [hopen hr hal]
      rfl
  · refine hf.opened rfl hsucc fun y => .inl ?_
    rw [hprot y, if_neg fun h => hal (hok.mp h.1)]

theorem viewLength_zero (n : UInt64) : viewLength x.space.pageSize n 0 = 0 := by
  have hroom := limit_add_page x.space.toGeometry
  have hup : (maskUp x.space.pageSize 0).toNat = roundUp x.space.page 0 :=
    toNat_alignUp (by rw [UInt64.toNat_zero]; omega)
  rw [roundUp_of_dvd x.space.page_pos (Nat.dvd_zero _)] at hup
  rw [← UInt64.toNat_inj, viewLength, toNat_wordMin, hup, Nat.min_zero, UInt64.toNat_zero]

def viewAt (x : Sys) (r : MmapRequest) (file : HostFile) (page base : UInt64) : SysOut :=
  let phase := r.offset % page
  let fileOffset := r.offset - phase
  let rounded := viewLength page (phase + r.length)
    (if file.size > fileOffset then file.size - fileOffset else 0)
  let (ok, h) := if rounded = 0 then (false, x.host)
    else x.host.mapFile page base rounded ⟨true, r.viewWritable⟩
      fun k => file.bytes (fileOffset.toNat + k)
  let x := { x with host := h }
  if ok then
    let shared := x.shared.noteSharedMapping base rounded file fileOffset r.viewWritable
    ⟨.ok (x.toGuest (base + phase)), { x with shared }.addMapping (base + phase) r.length⟩
  else if phase ≠ 0 then
    let (placed, x) := ((x.release base (r.length + phase)).2).allocate r.length 0
      (r.recorded ||| kGuestProtWrite)
    if placed = 0 then ⟨.error enomem, x⟩ else x.mmapCopy r file placed
  else x.mmapCopy r file (base + phase)

theorem mmapView_eq (x : Sys) (r : MmapRequest) (file : HostFile) (placed : UInt64) :
    x.mmapView r file placed = if r.offset % x.space.pageSize ≠ 0 ∧ (x.viewPlace r placed).1 = 0
      then ⟨.error enomem, (x.viewPlace r placed).2⟩
      else (x.viewPlace r placed).2.viewAt r file x.space.pageSize (x.viewPlace r placed).1 :=
  rfl

section

variable (hf : x.Fine)
include hf

theorem Fine.viewAt {base : UInt64} (hp : x.space.Placed (r.recorded.has kGuestProtRead) base
      (r.length + r.offset % x.space.pageSize)) (hpos : 0 < r.length.toNat)
    (hlen : r.offset % x.space.pageSize ≠ 0 → r.length.toNat + 2 * x.space.page ≤ 2 ^ 64)
    (file : HostFile) (hro : r.recorded.has kGuestProtRead = true →
      r.offset - r.offset % x.space.pageSize < file.size → base % x.space.pageSize = 0 →
      r.viewWritable = true) : x.Carries (x.viewAt r file x.space.pageSize base).sys := by
  unfold Sys.viewAt
  dsimp only
  rw [UInt64.add_comm (r.offset % x.space.pageSize) r.length]
  generalize hafter : (if file.size > r.offset - r.offset % x.space.pageSize
    then file.size - (r.offset - r.offset % x.space.pageSize) else 0) = after
  generalize hlen' : viewLength x.space.pageSize (r.length + r.offset % x.space.pageSize)
    after = len
  generalize hmap : (if len = 0 then (false, x.host)
    else x.host.mapFile x.space.pageSize base len ⟨true, r.viewWritable⟩
      fun k => file.bytes ((r.offset - r.offset % x.space.pageSize).toNat + k)) = m
  -- The file has to go on past the offset for there to be a view at all.
  have hview : x.Carries { x with host := m.2 } := by
    by_cases h0 : len = 0
    · rw [if_pos h0] at hmap
      rw [← hmap]
      exact hf.refl
    · rw [if_neg h0] at hmap
      rw [← hmap, ← hlen']
      refine hf.view hp _ _ fun hr hal => hro hr ?_ hal
      by_contra hshort
      rw [if_neg hshort] at hafter
      rw [← hafter, viewLength_zero] at hlen'
      exact h0 hlen'.symm
  split
  · exact hview.trans (Fine.same hview.fine rfl rfl)
  · by_cases h0 : r.offset % x.space.pageSize = 0
    · rw [if_neg (not_not.mpr h0), h0, UInt64.add_zero]
      rw [h0, UInt64.add_zero] at hp
      exact hview.trans (Fine.copy hview.fine hp file)
    · rw [if_pos h0]
      have hroom := hlen h0
      have hp' : Placed (Sys.space { x with host := m.2 }) (r.recorded.has kGuestProtRead)
          base (r.length + r.offset % x.space.pageSize) := hp
      obtain ⟨hcar, hnew⟩ := Fine.replaced hview.fine hp' hpos
        (by change r.length.toNat + x.space.page ≤ _; omega)
      split
      · exact hview.trans hcar
      next hne => exact (hview.trans hcar).trans (Fine.copy hcar.fine (hnew hne) file)

section

variable (hp : x.space.Placed (r.recorded.has kGuestProtRead) placed r.length)
include hp

theorem Fine.mmapView
    (hlen : r.offset % x.space.pageSize ≠ 0 → r.length.toNat + 2 * x.space.page ≤ 2 ^ 64)
    (file : HostFile) (hro : r.recorded.has kGuestProtRead = true →
      r.offset - r.offset % x.space.pageSize < file.size →
      (r.offset % x.space.pageSize = 0 → placed % x.space.pageSize = 0) → r.viewWritable = true) :
    x.Carries (x.mmapView r file placed).sys := by
  obtain ⟨hcar, hplaced⟩ := hf.viewPlace hp hlen
  have hsize : (x.viewPlace r placed).2.space.pageSize = x.space.pageSize :=
    congrArg pageSize hcar.geometry
  rw [mmapView_eq]
  split
  · exact hcar
  next hno =>
    refine hcar.trans ?_
    rw [← hsize]
    refine Fine.viewAt hcar.fine ?_ hp.pos ?_ file ?_
    · rw [hsize]
      exact hplaced hno
    · rw [hsize, show (x.viewPlace r placed).2.space.page = x.space.page from
        congrArg page hcar.geometry]
      exact hlen
    · rw [hsize]
      intro hr hlong hal
      refine hro hr hlong fun h0 => ?_
      unfold Sys.viewPlace at hal
      rw [h0] at hal
      exact hal

theorem Fine.descriptor (hlen : r.fixed = false → r.length.toNat + 2 * x.space.page ≤ 2 ^ 64)
    (hro : ∀ file, r.file = some file → file.isFramebuffer = false →
      (r.wantsShared = true ∨ x.shared.fileIsWrittenThroughSharedMapping file.host = true) →
      (r.fixed = true → r.offset % x.space.pageSize = 0 ∧ placed % x.space.pageSize = 0) →
      r.offset - r.offset % x.space.pageSize < file.host.size →
      r.recorded.has kGuestProtRead = true → r.viewWritable = true) :
    x.Carries (x.mmapDescriptor r placed).sys := by
  unfold mmapDescriptor
  split
  · exact hf.drop hp
  next file hfile =>
    dsimp only
    split
    · split
      · exact hf.drop hp
      · exact hf.drop hp
    next hfb =>
      split
      next hview =>
        simp only [Bool.and_eq_true, Bool.or_eq_true, Bool.not_eq_true', beq_iff_eq] at hview
        obtain ⟨hkind, hphase⟩ := hview
        refine hf.mmapView hp (fun h0 => hlen (hphase.resolve_left h0)) file.host
          fun hr hlong hal => ?_
        refine hro file hfile (Bool.eq_false_iff.mpr hfb)
          (hkind.imp_right fun h => h.2) (fun hfixed => ?_) hlong hr
        have h0 := hphase.resolve_right (by rw [hfixed]; exact Bool.true_eq_false.mp)
        exact ⟨h0, hal h0⟩
      · exact hf.copy hp file.host

end

theorem Fine.mmapPlace (hpos : 0 < r.length.toNat) (hfit : x.MmapFits r) :
    x.Places r (x.mmapAddress r) (x.mmapPlace r (x.mmapAddress r)) := by
  by_cases hfixed : r.fixed = true ∧ x.mmapAddress r ≠ 0
  · exact hf.mmapPlace_fixed hpos hfixed.1 hfixed.2 hfit
  · refine hf.mmapPlace_free hpos ?_ hfit
    rw [not_and_or, Bool.not_eq_true, not_not] at hfixed
    exact hfixed

end

theorem Places.descriptor (hfit : x.MmapFits r) (hview : ¬ x.ReadOnlyView r)
    (hanon : r.anonymous = false) {x₁ x₂ : Sys}
    (hplaces : x.Places r (x.mmapAddress r) (some placed, stale, x₁)) (hfills : x₁.Fills x₂)
    (hshared : x₂.shared = x₁.shared) : x.Carries (x₂.mmapDescriptor r placed).sys := by
  obtain ⟨hp, hsame⟩ := hplaces.placed placed rfl
  have hall : x.Carries x₂ := hplaces.carries.trans hfills.carries
  have hsize : x₂.space.pageSize = x.space.pageSize := congrArg pageSize hall.geometry
  have hpage : x₂.space.page = x.space.page := congrArg page hall.geometry
  rw [← hfills.space] at hp
  refine hall.trans (Fine.descriptor hall.fine hp (fun hno => ?_)
    fun file hfile hfb hkind hal hlong hr => ?_)
  · rw [hpage]
    exact (hfit.free (.inl hno)).1
  · by_contra hw
    rw [hsize] at hal hlong
    refine hview ⟨hanon, Bool.eq_false_iff.mpr hw, hr, fun hfixed => ⟨(hal hfixed).1, ?_⟩,
      file, hfile, hfb, hkind.imp_right fun h => hplaces.written file.host ?_, hlong⟩
    · by_cases h0 : x.mmapAddress r = 0
      · exact .inl h0
      · right
        rw [← hsame hfixed h0]
        exact (hal hfixed).2
    · rw [hshared] at h
      exact h

theorem Fine.doMmap (hf : x.Fine) (hfit : x.MmapFits r) (hview : ¬ x.ReadOnlyView r) :
    x.Carries (x.doMmap r).sys := by
  unfold Sys.doMmap
  split
  · exact hf.refl
  next hne =>
    have hplaces := hf.mmapPlace (toNat_pos hne) hfit
    rw [show (if r.address != 0 then x.toHost r.address else 0) = x.mmapAddress r from rfl]
    dsimp only
    generalize x.mmapPlace r (x.mmapAddress r) = out at hplaces ⊢
    obtain ⟨spot, stale, x₁⟩ := out
    cases spot with
    | none => exact hplaces.carries
    | some placed =>
      have hp := (hplaces.placed placed rfl).1
      have hcar : x.Carries x₁ := hplaces.carries
      obtain ⟨hnote, hshared⟩ := Fine.noteImage hcar.fine r placed
      dsimp only at hp ⊢
      split
      · have hfills := hnote.trans (Fine.anonymous hnote.carries.fine r placed stale)
        rw [← hfills.space] at hp
        exact (hcar.trans hfills.carries).trans (Fine.finish hfills.carries.fine hp)
      next hanon => exact hplaces.descriptor hfit hview (Bool.eq_false_iff.mpr hanon) hnote hshared

/-! ## munmap and mprotect -/

theorem Fine.munmap (hf : x.Fine) {a n : UInt64}
    (hfit : (x.toHost a).toNat + n.toNat + 4096 ≤ 2 ^ 64) : x.Carries (x.munmap a n).sys := by
  unfold Sys.munmap
  dsimp only
  generalize x.process.syscalls.mappings.filter _ = kept
  have hforget : x.Carries { x with process := { x.process with
      syscalls := { x.process.syscalls with mappings := kept } } } := hf.same rfl rfl
  have hshared := Fine.replaceShared hforget.fine (x.toHost a) (x.toHost a + n)
  exact (hforget.trans hshared).trans (Fine.release hshared.fine hfit)

theorem Fine.mprotect (hf : x.Fine) {a n : UInt64} {protection : UInt32}
    (hfit : (x.toHost a).toNat + n.toNat + x.space.page ≤ 2 ^ 64)
    (hdeg : ¬ x.space.Degenerate (x.toHost a) n)
    (hok : ¬ x.space.Uncovers x.host (x.toHost a) n (guestProtection protection)) :
    x.Carries (x.mprotect a n protection).sys :=
  GuestAddressSpace.Fine.protect hf hfit hdeg hok

end Sys

end Fathom
