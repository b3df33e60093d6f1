import Fathom.Proofs.MapPairs

/-!
# An anonymous fixed mapping reads as zero

`DoMmap` never writes zeros over a whole range: the pages inside are dropped and those at
the edges cleared. Neither stores anything but zeros, or anything outside the mapping.
-/

namespace Fathom

open Lib Spanned GuestAddressSpace Host

/-! ## Stores that wipe -/

namespace Host

structure Wipes (b e : Nat) (h h' : Host) : Prop where
  zero : ∀ y, h.mem y = 0 → h'.mem y = 0
  rest : ∀ y, ¬ (b ≤ y ∧ y < e) → h'.mem y = h.mem y
  view : ∀ y, h'.view y = true → h.view y = true
  through : ∀ y, h'.through y = true → h.through y = true ∨ ((b ≤ y ∧ y < e) ∧ h.view y = true)

variable {b e : Nat} {h h' h'' : Host}

theorem Wipes.refl (b e : Nat) (h : Host) : Wipes b e h h :=
  ⟨fun _ => id, fun _ _ => rfl, fun _ => id, fun _ => .inl⟩

theorem Wipes.trans (h₁ : Wipes b e h h') (h₂ : Wipes b e h' h'') : Wipes b e h h'' := by
  refine ⟨fun y hy => h₂.zero y (h₁.zero y hy), fun y hy => ?_,
    fun y hy => h₁.view y (h₂.view y hy), fun y hy => ?_⟩
  · rw [h₂.rest y hy, h₁.rest y hy]
  · rcases h₂.through y hy with hy | ⟨hin, hv⟩
    · exact h₁.through y hy
    · exact .inr ⟨hin, h₁.view y hv⟩

theorem wipes_store {a n : UInt64} (hb : b ≤ a.toNat) (he : a.toNat + n.toNat ≤ e) :
    Wipes b e h (h.store a n fun _ => 0) := by
  refine ⟨fun y hy => ?_, fun y hy => ?_, fun _ => id, fun y hy => ?_⟩
  · change (if inSpan a n y then 0 else h.mem y) = 0
    split
    · rfl
    · exact hy
  · change (if inSpan a n y then 0 else h.mem y) = h.mem y
    rw [if_neg]
    rw [inSpan_iff]
    omega
  · change (h.through y || (inSpan a n y && h.view y)) = true at hy
    simp only [Bool.or_eq_true, Bool.and_eq_true, inSpan_iff] at hy
    exact hy.imp_right fun hin => ⟨by omega, hin.2⟩

theorem wipes_fresh (hh : h.Succeeds) {a n : UInt64} (hb : b ≤ a.toNat) (he : a.toNat + n.toNat ≤ e)
    (p : HostProt) : Wipes b e h ((h.mapFreshAnonymous a n).2.mprotect a n p).2 := by
  have hquiet := (h.mapFreshAnonymous_quiet a n).trans (mprotect_quiet _ a n p)
  refine ⟨fun y hy => ?_, fun y hy => ?_, hquiet.view, fun y hy => ?_⟩
  · rw [mprotect_mem, hh.mapFresh_mem]
    split
    · rfl
    · exact hy
  · rw [mprotect_mem, hh.mapFresh_mem, if_neg]
    rw [inSpan_iff]
    omega
  · rw [hquiet.through] at hy
    exact .inl hy

end Host

/-! ## Views taken out keep their bytes -/

namespace SharedTable

variable {b e : UInt64}

def OnRecord (t : SharedTable) (y : Nat) : Prop :=
  ∃ slot ∈ t.slots, slot.stop ≠ 0 ∧ slot.begin.toNat ≤ y ∧ y < slot.stop.toNat ∧
  t.low ≤ slot.begin ∧ slot.stop ≤ t.high

theorem unshared_quiet {h : Host} (hh : h.Succeeds) (low n : UInt64) :
    (unshared h low n).mem = h.mem ∧ h.Quiet (unshared h low n) ∧
      ∀ y, inSpan low n y = true → (unshared h low n).view y = false := by
  have hh₁ := (hh.mprotect low n protRead).2
  have hq : h.Quiet (h.mprotect low n protRead).2 := h.mprotect_quiet low n protRead
  have hmem : (h.mprotect low n protRead).2.mem = h.mem := mprotect_mem _ _ _ _
  rw [unshared, hh₁.mapReadWrite_eq]
  generalize (h.mprotect low n protRead).2 = h₁ at *
  refine ⟨?_, ⟨fun y hy => hq.view y ?_, ?_⟩, fun y hy => ?_⟩
  · funext y
    change (if inSpan low n y then h₁.mem y
      else if inSpan low n y then 0 else h₁.mem y) = h.mem y
    split
    · rw [hmem]
    · rw [hmem]
  · exact (Bool.and_eq_true_iff.mp hy).2
  · rw [← hq.through]
    funext y
    change (h₁.through y || (inSpan low n y && (!inSpan low n y && h₁.view y))) =
      h₁.through y
    cases inSpan low n y <;> simp
  · change (!inSpan low n y && h₁.view y) = false
    rw [hy]
    rfl

theorem unshared_covers {page : UInt64} {k : Nat} (hpage : page.toNat = 2 ^ k)
    (hroom : e.toNat + page.toNat ≤ 2 ^ 64) (slot : SharedMappingSlot) {y : Nat} (hb : b.toNat ≤ y)
    (he : y < e.toNat) (h1 : slot.begin.toNat ≤ y) (h2 : y < slot.stop.toNat) :
    let low := maskDown page (wordMax b slot.begin)
    let high := wordMin (maskUp page (wordMin e slot.stop)) slot.stop
    inSpan low (high - low) y = true := by
  intro low high
  have hpos : 0 < page.toNat := by
    rw [hpage]
    exact Nat.two_pow_pos k
  have hmin := toNat_wordMin e slot.stop
  have hlow : low.toNat ≤ y := by
    rw [toNat_maskDown hpage]
    have := roundDown_le page.toNat (wordMax b slot.begin).toNat
    rw [toNat_wordMax] at this ⊢
    omega
  have hhigh : y < high.toNat := by
    rw [toNat_wordMin, toNat_maskUp hpage (by omega)]
    have := le_roundUp hpos (wordMin e slot.stop).toNat
    omega
  rw [inSpan_iff, toNat_sub_of_le (by omega)]
  omega

theorem misses_eq_false {slot : SharedMappingSlot} {y : Nat} (hb : b.toNat ≤ y) (he : y < e.toNat)
    (hlive : slot.stop ≠ 0) (h1 : slot.begin.toNat ≤ y) (h2 : y < slot.stop.toNat) :
    slot.misses b e = false := by
  unfold SharedMappingSlot.misses
  simp only [Bool.or_eq_false_iff, decide_eq_false_iff_not, beq_eq_false_iff_ne,
    UInt64.le_iff_toNat_le]
  exact ⟨⟨hlive, by omega⟩, by omega⟩

theorem replaceSlots_unshares {page : UInt64} {k : Nat} (hpage : page.toNat = 2 ^ k)
    (hroom : e.toNat + page.toNat ≤ 2 ^ 64) (slots : List SharedMappingSlot) :
    ∀ {h : Host}, h.Succeeds → (replaceSlots b e page slots h).2.mem = h.mem ∧
    h.Quiet (replaceSlots b e page slots h).2 ∧
    ∀ slot ∈ slots, ∀ y, b.toNat ≤ y → y < e.toNat → slot.stop ≠ 0 →
    slot.begin.toNat ≤ y → y < slot.stop.toNat →
    (replaceSlots b e page slots h).2.view y = false := by
  induction slots with
  | nil =>
    intro h _
    exact ⟨rfl, Quiet.refl h, fun _ hs => (nomatch hs)⟩
  | cons slot _ ih =>
    intro h hh
    by_cases hmiss : slot.misses b e = true
    · rw [replaceSlots, if_pos hmiss]
      obtain ⟨hmem, hquiet, hview⟩ := ih hh
      refine ⟨hmem, hquiet, fun s hs y hb he hlive h1 h2 => ?_⟩
      rcases List.mem_cons.mp hs with rfl | hs
      · rw [misses_eq_false hb he hlive h1 h2] at hmiss
        cases hmiss
      · exact hview s hs y hb he hlive h1 h2
    · have hcover := fun y => unshared_covers (y := y) (b := b) hpage hroom slot
      rw [replaceSlots_hit hh page hmiss]
      dsimp only at hcover ⊢
      generalize maskDown page (wordMax b slot.begin) = low at *
      generalize wordMin (maskUp page (wordMin e slot.stop)) slot.stop = high at *
      obtain ⟨hmem₁, hquiet₁, hview₁⟩ := unshared_quiet hh low (high - low)
      obtain ⟨hmem, hquiet, hview⟩ := ih (unshared_spec hh low (high - low)).1
      refine ⟨hmem.trans hmem₁, hquiet₁.trans hquiet, fun s hs y hb he hlive h1 h2 => ?_⟩
      rcases List.mem_cons.mp hs with rfl | hs
      · have hgone := hview₁ y (hcover y hb he h1 h2)
        rw [Bool.eq_false_iff] at hgone ⊢
        exact fun hv => hgone (hquiet.view y hv)
      · exact hview s hs y hb he hlive h1 h2

end SharedTable

/-! ## The arena's own calls store nothing -/

namespace GuestAddressSpace

theorem commitRange_quiet (h : Host) (b e page : UInt64) (hp : HostProt)
    (committed : List GuestRange) : h.Quiet (commitRange h b e page hp committed).2 := by
  unfold commitRange
  dsimp only
  refine Quiet.trans ?_ (mprotect_quiet _ _ _ _)
  generalize gapsFrom e b committed = gaps
  induction gaps generalizing h with
  | nil => exact Quiet.refl h
  | cons _ _ ih =>
    rw [List.foldl_cons]
    refine Quiet.trans ?_ (ih _)
    split
    · exact h.mapFreshAnonymous_quiet _ _
    · exact Quiet.refl h

theorem commitGaps_quiet (p : Prot) (gaps : List (UInt64 × UInt64)) (s : GuestAddressSpace)
    (h : Host) : h.Quiet (commitGaps p gaps s h).1 := by
  induction gaps generalizing s h with
  | nil => exact Quiet.refl h
  | cons _ _ ih =>
    rw [commitGaps]
    dsimp only
    split
    · exact (commitRange_quiet h _ _ _ _ _).trans (ih _ _)
    · exact (commitRange_quiet h _ _ _ _ _).trans (ih _ _)

section

variable (s : GuestAddressSpace)

section

variable (h : Host) (a n : UInt64) (p : Prot)

theorem protectLocked_quiet : h.Quiet (s.protectLocked h a n p).host := by
  unfold protectLocked
  dsimp only
  split
  · split
    · exact h.mprotect_quiet _ _ _
    · exact Quiet.refl h
  · exact Quiet.refl h

theorem protect_mem : (s.protect h a n p).host.mem = h.mem := by
  unfold protect protectLocked
  dsimp only
  split_ifs <;> simp

theorem protect_quiet : h.Quiet (s.protect h a n p).host := by
  unfold protect
  dsimp only
  split
  · exact s.protectLocked_quiet h a n p
  · exact s.protectLocked_quiet h a n p

theorem commitFixed_quiet : h.Quiet (s.commitFixed h a n p).host := by
  unfold commitFixed
  dsimp only
  split
  · exact Quiet.refl h
  · split
    · exact Quiet.refl h
    · split
      · exact (commitGaps_quiet p _ s h).trans (protectLocked_quiet _ _ _ _ _)
      · split
        · exact commitRange_quiet h _ _ _ _ _
        · exact commitRange_quiet h _ _ _ _ _

end

end

variable {s : GuestAddressSpace}

theorem dropPages_eq {h : Host} (hh : h.Succeeds) {low high : UInt64}
    (hlt : low.toNat < high.toNat) (hdl : s.page ∣ low.toNat) (hdh : s.page ∣ high.toNat)
    (hlo : s.base.toNat ≤ low.toNat) (hhi : high.toNat ≤ s.limit) : s.dropPages h low (high - low) =
      ((h.mapFreshAnonymous low (high - low)).2.mprotect low (high - low) protReadWrite).2 := by
  have hroom := s.limit_add_page
  have hend : low + (high - low) = high := (sub_span hlt).2
  have hup : s.alignUp low = low := UInt64.toNat_inj.mp (by
    rw [toNat_alignUp (by omega), roundUp_of_dvd s.page_pos hdl])
  have hdown : s.alignDown high = high := UInt64.toNat_inj.mp (by
    rw [toNat_alignDown, roundDown_of_dvd hdh])
  unfold dropPages
  dsimp only
  rw [hend, hup, hdown, if_neg, if_pos (hh.mapFresh _ _).1]
  rw [UInt64.le_iff_toNat_le, UInt64.lt_iff_toNat_lt, gt_iff_lt, UInt64.lt_iff_toNat_lt,
    s.toNat_limit]
  omega

end GuestAddressSpace

/-! ## One host page

What a piece in use, `[g₁, g₂)`, has cleared reaches every byte of the pages it
lies on: the whole pages inside it, and the pages at its ends from end to end. -/

theorem clear_covers {p g₁ g₂ z y : Nat} (hp : 0 < p) (hz : g₁ ≤ z ∧ z < g₂) (hy : y ∈ pageOf p z) :
    (roundUp p g₁ ≤ y ∧ y < roundDown p g₂) ∨ (roundDown p g₁ ≤ y ∧ y < min (roundUp p g₁) g₂) ∨
    (max (roundDown p g₂) g₁ ≤ y ∧ y < roundUp p g₂) := by
  rw [mem_pageOf_iff hp] at hy
  have hz₁ := roundDown_le p z
  have hz₂ := lt_roundDown_add hp z
  have hd := dvd_roundDown p z
  generalize roundDown p z = q at *
  have hd' : p ∣ q + p := Nat.dvd_add hd (Nat.dvd_refl p)
  have hup := roundUp_le_iff (n := g₁) hp hd
  have hup' := roundUp_le_iff (n := g₂) hp hd
  have hdown' := le_roundDown_iff (n := g₂) hp hd'
  have hle := roundDown_le p g₁
  have hle' := roundDown_le p g₂
  by_cases hstart : q < g₁
  · -- The piece starts on this page.
    have h1 : roundDown p g₁ ≤ q := by
      by_contra hcon
      have := add_le_of_dvd_of_lt hd (dvd_roundDown p g₁) (by omega)
      omega
    have h2 : q + p ≤ roundUp p g₁ := add_le_of_dvd_of_lt hd (dvd_roundUp p g₁) (by omega)
    have h3 : q + p ≤ roundUp p g₂ := add_le_of_dvd_of_lt hd (dvd_roundUp p g₂) (by omega)
    omega
  · by_cases hstop : q + p ≤ g₂
    · exact .inl ⟨by omega, by omega⟩
    · have h3 : q + p ≤ roundUp p g₂ := add_le_of_dvd_of_lt hd (dvd_roundUp p g₂) (by omega)
      omega

theorem edge_covers {p a e z y : Nat} (hp : 0 < p) (hy : a ≤ y ∧ y < e)
    (hz : ¬ (a ≤ z ∧ z < e)) (hpage : z ∈ pageOf p y) :
    y < min (roundUp p a) e ∨ max (roundDown p e) (min (roundUp p a) e) ≤ y := by
  rw [mem_pageOf_iff hp] at hpage
  have hy₁ := roundDown_le p y
  have hy₂ := lt_roundDown_add hp y
  have hd := dvd_roundDown p y
  generalize roundDown p y = q at *
  have h1 : q < a → q + p ≤ roundUp p a := by
    intro hlt
    exact add_le_of_dvd_of_lt hd (dvd_roundUp p a) (hlt.trans_le (le_roundUp hp a))
  have h2 : e < q + p → roundDown p e ≤ q := by
    have := roundDown_le p e
    by_contra hcon
    have := add_le_of_dvd_of_lt hd (dvd_roundDown p e) (by omega)
    omega
  omega

/-! ## The zeroing of a mapping -/

namespace Sys

variable {x : Sys} {r : MmapRequest} {a : UInt64}

def Inside (x : Sys) (a n : UInt64) : Prop :=
  x.space.base.toNat ≤ a.toNat ∧ a.toNat + n.toNat ≤ x.space.limit

structure Clears (x : Sys) (a n : UInt64) (x' : Sys) : Prop where
  process : x'.process = x.process
  succeeds : x'.host.Succeeds
  wipes : Wipes a.toNat (a.toNat + n.toNat) x.host x'.host

theorem Clears.refl (hh : x.host.Succeeds) (a n : UInt64) : x.Clears a n x :=
  ⟨rfl, hh, Wipes.refl _ _ _⟩

variable {n : UInt64}

theorem Clears.trans {x' x'' : Sys} (h₁ : x.Clears a n x') (h₂ : x'.Clears a n x'') :
    x.Clears a n x'' :=
  ⟨h₂.process.trans h₁.process, h₂.succeeds, h₁.wipes.trans h₂.wipes⟩

section

variable (hh : x.host.Succeeds)
include hh

theorem mmapZero_clears (hfit : a.toNat + r.length.toNat < 2 ^ 64) (low high : UInt64) :
    x.Clears a r.length (x.mmapZero r a low high) ∧
    ∀ y, a.toNat ≤ y → y < a.toNat + r.length.toNat → low.toNat ≤ y → y < high.toNat →
    (x.mmapZero r a low high).host.mem y = 0 := by
  have hsum := toNat_add_of_lt hfit
  have hmax := toNat_wordMax low a
  have hmin := toNat_wordMin high (a + r.length)
  refine ⟨⟨mmapZero_process x r a low high, ?_, ?_⟩, fun y h1 h2 h3 h4 => ?_⟩
  · unfold mmapZero
    dsimp only
    split
    · exact hh
    · exact hh
  · unfold mmapZero
    dsimp only
    split
    next hlt =>
      rw [gt_iff_lt, UInt64.lt_iff_toNat_lt] at hlt
      have hsub := toNat_sub_of_le hlt.le
      exact wipes_store (by omega) (by omega)
    · exact Wipes.refl _ _ _
  · have hlt : wordMin high (a + r.length) > wordMax low a := by
      rw [gt_iff_lt, UInt64.lt_iff_toNat_lt]
      omega
    unfold mmapZero
    rw [if_pos hlt]
    change (if inSpan _ _ y then _ else _) = _
    rw [if_pos]
    rw [inSpan_iff, toNat_sub_of_le hlt.le]
    omega

section

variable (hin : x.Inside a r.length) {g : UInt64 × UInt64} (hg₁ : a.toNat ≤ g.1.toNat)
  (hg₂ : g.2.toNat ≤ a.toNat + r.length.toNat)
include hin hg₁ hg₂

theorem dropped_clears : let low := maskUp x.space.pageSize g.1
    let high := maskDown x.space.pageSize g.2
    let x' := if high > low
      then { x with host := x.space.dropPages x.host low (high - low) } else x
    g.1.toNat < g.2.toNat → x.Clears a r.length x' ∧
      ∀ y, roundUp x.space.page g.1.toNat ≤ y → y < roundDown x.space.page g.2.toNat →
        x'.host.mem y = 0 := by
  intro low high x' hg
  have hroom := x.space.limit_add_page
  have hend := hin.2
  have hstart := hin.1
  have hlow : low.toNat = roundUp x.space.page g.1.toNat := toNat_alignUp (by omega)
  have hhigh : high.toNat = roundDown x.space.page g.2.toNat := toNat_alignDown x.space g.2
  have hle := le_roundUp x.space.page_pos g.1.toNat
  have hle' := roundDown_le x.space.page g.2.toNat
  by_cases hlt : high > low
  · have hx' : x' = { x with host := x.space.dropPages x.host low (high - low) } := if_pos hlt
    rw [gt_iff_lt, UInt64.lt_iff_toNat_lt] at hlt
    have hsub := toNat_sub_of_le hlt.le
    rw [dropPages_eq hh hlt (by rw [hlow]; exact dvd_roundUp _ _)
      (by rw [hhigh]; exact dvd_roundDown _ _) (by omega) (by omega)] at hx'
    rw [hx']
    refine ⟨⟨rfl, ((hh.mapFresh _ _).2.mprotect _ _ _).2,
      wipes_fresh hh (by omega) (by omega) _⟩, fun y h1 h2 => ?_⟩
    rw [mprotect_mem, hh.mapFresh_mem, if_pos]
    rw [inSpan_iff]
    omega
  · have hx' : x' = x := if_neg hlt
    rw [gt_iff_lt, UInt64.lt_iff_toNat_lt] at hlt
    rw [hx']
    exact ⟨Clears.refl hh _ _, fun y h1 h2 => by omega⟩

theorem mmapClear_clears (hg : g.1.toNat < g.2.toNat) : x.Clears a r.length (x.mmapClear r a g) ∧
    ∀ z y, g.1.toNat ≤ z → z < g.2.toNat → y ∈ pageOf x.space.page z → a.toNat ≤ y →
    y < a.toNat + r.length.toNat → (x.mmapClear r a g).host.mem y = 0 := by
  have hroom := x.space.limit_add_page
  have hend := hin.2
  have hfit : a.toNat + r.length.toNat < 2 ^ 64 := by
    have := x.space.limit_lt
    omega
  have hlow : (maskUp x.space.pageSize g.1).toNat = roundUp x.space.page g.1.toNat :=
    toNat_alignUp (by omega)
  have hhigh : (maskDown x.space.pageSize g.2).toNat = roundDown x.space.page g.2.toNat :=
    toNat_alignDown x.space g.2
  have hout : (maskDown x.space.pageSize g.1).toNat = roundDown x.space.page g.1.toNat :=
    toNat_alignDown x.space g.1
  have hout' : (maskUp x.space.pageSize g.2).toNat = roundUp x.space.page g.2.toNat :=
    toNat_alignUp (by omega)
  obtain ⟨hc₁, hz₁⟩ := dropped_clears hh hin hg₁ hg₂ hg
  obtain ⟨hc₂, hz₂⟩ := mmapZero_clears hc₁.succeeds hfit (maskDown x.space.pageSize g.1)
    (wordMin (maskUp x.space.pageSize g.1) g.2)
  obtain ⟨hc₃, hz₃⟩ := mmapZero_clears hc₂.succeeds hfit
    (wordMax (maskDown x.space.pageSize g.2) g.1) (maskUp x.space.pageSize g.2)
  refine ⟨(hc₁.trans hc₂).trans hc₃, fun z y h1 h2 hpage hy hy' => ?_⟩
  rcases clear_covers x.space.page_pos ⟨h1, h2⟩ hpage with ⟨h3, h4⟩ | ⟨h3, h4⟩ | ⟨h3, h4⟩
  · exact hc₃.wipes.zero y (hc₂.wipes.zero y (hz₁ y h3 h4))
  · refine hc₃.wipes.zero y (hz₂ y hy hy' (by omega) ?_)
    rw [toNat_wordMin]
    omega
  · refine hz₃ y hy hy' ?_ (by omega)
    rw [toNat_wordMax]
    omega

end

end

theorem foldl_mmapClear_clears {stale : List (UInt64 × UInt64)}
    (hstale : ∀ g ∈ stale, a.toNat ≤ g.1.toNat ∧ g.2.toNat ≤ a.toNat + r.length.toNat ∧
      g.1.toNat < g.2.toNat) : ∀ {x : Sys}, x.host.Succeeds → x.Inside a r.length →
      let x' := stale.foldl (fun x piece => x.mmapClear r a piece) x
      x.Clears a r.length x' ∧
        ∀ g ∈ stale, ∀ z y, g.1.toNat ≤ z → z < g.2.toNat → y ∈ pageOf x.space.page z →
          a.toNat ≤ y → y < a.toNat + r.length.toNat → x'.host.mem y = 0 := by
  induction stale with
  | nil =>
    intro x hh _
    exact ⟨Clears.refl hh _ _, fun _ hg => (nomatch hg)⟩
  | cons piece _ ih =>
    intro x hh hin
    obtain ⟨h1, h2, h3⟩ := hstale piece (by simp)
    obtain ⟨hc, hz⟩ := mmapClear_clears hh hin h1 h2 h3
    have hspace : (x.mmapClear r a piece).space = x.space := congrArg GuestProcess.space hc.process
    obtain ⟨hc', hz'⟩ := ih (fun g hg => hstale g (by simp [hg])) hc.succeeds
      (show (x.mmapClear r a piece).Inside a r.length by unfold Inside; rw [hspace]; exact hin)
    rw [hspace] at hz'
    refine ⟨hc.trans hc', fun g hg z y hz₁ hz₂ hpage hy hy' => ?_⟩
    rcases List.mem_cons.mp hg with rfl | hg
    · exact hc'.wipes.zero y (hz z y hz₁ hz₂ hpage hy hy')
    · exact hz' g hg z y hz₁ hz₂ hpage hy hy'

theorem mmapAnonymous_clears (hh : x.host.Succeeds) (hin : x.Inside a r.length)
    (stale : List (UInt64 × UInt64))
    (hstale : ∀ g ∈ stale, a.toNat ≤ g.1.toNat ∧ g.2.toNat ≤ a.toNat + r.length.toNat ∧
      g.1.toNat < g.2.toNat) : x.Clears a r.length (x.mmapAnonymous r a stale) ∧
      ∀ y, a.toNat ≤ y → y < a.toNat + r.length.toNat → ∀ z ∈ pageOf x.space.page y,
        ((∃ g ∈ stale, g.1.toNat ≤ z ∧ z < g.2.toNat) ∨
          ¬ (a.toNat ≤ z ∧ z < a.toNat + r.length.toNat)) →
        (x.mmapAnonymous r a stale).host.mem y = 0 := by
  have hroom := x.space.limit_add_page
  have hend := hin.2
  have hfit : a.toNat + r.length.toNat < 2 ^ 64 := by
    have := x.space.limit_lt
    omega
  have hsum := toNat_add_of_lt hfit
  have hup : (maskUp x.space.pageSize a).toNat = roundUp x.space.page a.toNat :=
    toNat_alignUp (by omega)
  have hdown : (maskDown x.space.pageSize (a + r.length)).toNat =
      roundDown x.space.page (a + r.length).toNat := toNat_alignDown x.space _
  have hhead := toNat_wordMin (maskUp x.space.pageSize a) (a + r.length)
  have htail := toNat_wordMax (maskDown x.space.pageSize (a + r.length))
    (wordMin (maskUp x.space.pageSize a) (a + r.length))
  rw [hdown, hsum] at htail
  obtain ⟨hc₁, hz₁⟩ := foldl_mmapClear_clears hstale hh hin
  unfold mmapAnonymous
  dsimp only at hc₁ hz₁ ⊢
  generalize wordMax (maskDown x.space.pageSize (a + r.length))
    (wordMin (maskUp x.space.pageSize a) (a + r.length)) = tail at *
  generalize wordMin (maskUp x.space.pageSize a) (a + r.length) = head at *
  obtain ⟨hc₂, hz₂⟩ := mmapZero_clears hc₁.succeeds hfit a head
  obtain ⟨hc₃, hz₃⟩ := mmapZero_clears hc₂.succeeds hfit tail (a + r.length)
  refine ⟨(hc₁.trans hc₂).trans hc₃, fun y hy hy' z hz hwhere => ?_⟩
  rcases hwhere with ⟨g, hg, h1, h2⟩ | hz'
  · exact hc₃.wipes.zero y (hc₂.wipes.zero y (hz₁ g hg z y h1 h2 hz.symm hy hy'))
  · rcases edge_covers x.space.page_pos ⟨hy, hy'⟩ hz' hz with hlt | hge
    · exact hc₃.wipes.zero y (hz₂ y hy hy' hy (by omega))
    · exact hz₃ y hy hy' (by omega) (by omega)

/-! ## The mapping's place -/

structure PlacesFixed (x : Sys) (p : Prot) (a n : UInt64) (x' : Sys) : Prop where
  calls : x'.process.syscalls = x.process.syscalls
  fixes : Fixes p (roundDown x.space.page a.toNat)
    (roundUp x.space.page (a.toNat + n.toNat)) x.space x'.space
  owned : ∀ y, roundDown x.space.page a.toNat ≤ y →
    y < roundUp x.space.page (a.toNat + n.toNat) → x'.space.layout.attr y ≠ none
  succeeds : x'.host.Succeeds
  zero : ∀ y, a.toNat ≤ y → y < a.toNat + n.toNat →
    (∀ z ∈ pageOf x.space.page y, x.space.layout.attr z = none) → x'.host.mem y = 0
  rest : ∀ y, (∃ z ∈ pageOf x.space.page y, x.space.layout.attr z ≠ none) →
    x'.host.mem y = x.host.mem y
  quiet : x.host.Quiet x'.host

theorem PlacesFixed.after {p : Prot} {x₁ x' : Sys} (hp : x₁.PlacesFixed p a n x')
    (hspace : x₁.space = x.space) (hcalls : x₁.process.syscalls = x.process.syscalls)
    (hmem : x₁.host.mem = x.host.mem) (hquiet : x.host.Quiet x₁.host) : x.PlacesFixed p a n x' := by
  obtain ⟨hc, hf, ho, hs, hz, hr, hq⟩ := hp
  rw [hspace] at hf ho hz hr
  rw [hmem] at hr
  exact ⟨hc.trans hcalls, hf, ho, hs, hz, hr, hquiet.trans hq⟩

theorem PlacesFixed.kept {p : Prot} {x' : Sys} (hp : x.PlacesFixed p a n x') (y : Nat)
    (hy : x.space.layout.attr y ≠ none) : x'.space.layout.attr y ≠ none := by
  by_cases hpages : roundDown x.space.page a.toNat ≤ y ∧
      y < roundUp x.space.page (a.toNat + n.toNat)
  · exact hp.owned y hpages.1 hpages.2
  · rw [(hp.fixes.outside y hpages).1]
    exact hy

theorem PlacesFixed.notified {p : Prot} {x' : Sys} (hp : x.PlacesFixed p a n x') (b e : UInt64) :
    x.PlacesFixed p a n (x'.notifyContentsReplaced b e) := by
  unfold notifyContentsReplaced
  split
  · refine ⟨hp.calls, hp.fixes.notify b e, fun y h1 h2 => ?_, hp.succeeds, hp.zero, hp.rest,
      hp.quiet⟩
    change (x'.space.notify b e).layout.attr y ≠ none
    rw [notify_layout]
    exact hp.owned y h1 h2
  · exact hp

theorem replaceShared_spec (hh : x.host.Succeeds) (hin : x.Inside a n) :
    (x.replaceSharedMappingsIn a (a + n)).host.Succeeds ∧
    (x.replaceSharedMappingsIn a (a + n)).host.mem = x.host.mem ∧
    x.host.Quiet (x.replaceSharedMappingsIn a (a + n)).host ∧
    ∀ y, a.toNat ≤ y → y < a.toNat + n.toNat → x.shared.OnRecord y →
    (x.replaceSharedMappingsIn a (a + n)).host.view y = false := by
  have hroom := x.space.limit_add_page
  have hlimit := x.space.limit_lt
  have hend := hin.2
  have hsum : (a + n).toNat = a.toNat + n.toNat := toNat_add_of_lt (by omega)
  obtain ⟨k, _, _, hpage⟩ := x.space.page_pow
  obtain ⟨hmem, hquiet, hview⟩ := SharedTable.replaceSlots_unshares hpage
    (show (a + n).toNat + x.space.page ≤ 2 ^ 64 by omega) x.shared.slots hh
  have hsucc := (SharedTable.replaceSlots_host a (a + n) x.space.pageSize x.shared.slots hh).1
  unfold replaceSharedMappingsIn SharedTable.replaceSharedMappingsIn
  split
  next hmiss =>
    refine ⟨hh, rfl, Quiet.refl _, fun y h1 h2 hrec => ?_⟩
    obtain ⟨_, _, _, hb, he, hlow, hhigh⟩ := hrec
    unfold SharedTable.misses at hmiss
    simp only [Bool.or_eq_true, decide_eq_true_eq, UInt64.le_iff_toNat_le] at hmiss
    rw [UInt64.le_iff_toNat_le] at hlow hhigh
    omega
  · refine ⟨hsucc, hmem, hquiet, fun y h1 h2 hrec => ?_⟩
    obtain ⟨slot, hslot, hlive, hb, he, _⟩ := hrec
    exact hview slot hslot y h1 (by omega) hlive hb he

theorem commitFixed_places (hs : x.space.ListInv) (hh : x.host.Succeeds) (p : Prot)
    (hpos : 0 < n.toNat) (hin : x.Inside a n) :
    (x.commitFixed a n p).1 = true ∧ x.PlacesFixed p a n (x.commitFixed a n p).2 := by
  obtain ⟨hlo, hhi⟩ := hin
  obtain ⟨hret, hhost⟩ := commitFixed_host hs _ p hpos hlo hhi hh
  have hfix := commitFixed_spec hs x.host p hpos hlo hhi
  have hdd := dvd_roundDown x.space.page a.toNat
  have hdu := dvd_roundUp x.space.page (a.toNat + n.toNat)
  have hdle := roundDown_le x.space.page a.toNat
  have hule := le_roundUp x.space.page_pos (a.toNat + n.toNat)
  refine ⟨hret, rfl, hfix, fun y h1 h2 => ?_, hhost.succeeds, fun y h1 h2 hfree => ?_,
    fun y hown => ?_, x.space.commitFixed_quiet x.host a n p⟩
  · cases hattr : x.space.layout.attr y with
    | none =>
      obtain ⟨_, hnew⟩ := hhost.placed y h1 h2 hattr
      exact fun hno => nomatch hnew.symm.trans hno
    | some t => exact fun hno => nomatch (hfix.owner y t h1 h2 hattr).symm.trans hno
  · refine hhost.zero y fun z hz => ⟨?_, hfree z hz⟩
    exact page_subset_span x.space.page_pos hdd hdu ⟨by omega, by omega⟩ hz
  · obtain ⟨z, hz, hne⟩ := hown
    exact hhost.rest y fun hall => hne (hall z hz).2

theorem contains_of_inside (hin : x.Inside a n) : x.space.contains a n = true := by
  have hlimit := x.space.limit_lt
  have hlo := hin.1
  have hhi := hin.2
  have hsum : (a + n).toNat = a.toNat + n.toNat := toNat_add_of_lt (by omega)
  have hsize : x.space.limit = x.space.base.toNat + x.space.size.toNat := rfl
  unfold GuestAddressSpace.contains
  simp only [Bool.and_eq_true, decide_eq_true_eq, UInt64.le_iff_toNat_le, x.space.toNat_limit]
  omega

theorem mmapPlace_fixed_spec (hs : x.space.ListInv) (hh : x.host.Succeeds)
    (hfixed : r.fixed = true) (hpos : 0 < r.length.toNat) (hin : x.Inside a r.length) :
    ∃ x', x.mmapPlace r a = (some a, if r.anonymous
        then committedIn x.space.committed a (a + r.length) else [], x') ∧
      x.PlacesFixed (r.recorded ||| kGuestProtWrite) a r.length x' ∧
      ∀ y, a.toNat ≤ y → y < a.toNat + r.length.toNat → x.shared.OnRecord y →
        x'.host.view y = false := by
  have hbase := x.space.base_pos
  have hlo := hin.1
  have ha : a ≠ 0 := ne_zero_of_toNat_pos (by omega)
  have hcontains := contains_of_inside hin
  obtain ⟨hh₁, hmem₁, hq₁, hview₁⟩ := replaceShared_spec hh hin
  have hsp₁ : (x.replaceSharedMappingsIn a (a + r.length)).space = x.space := rfl
  have hcalls₁ : (x.replaceSharedMappingsIn a (a + r.length)).process.syscalls =
      x.process.syscalls := rfl
  unfold mmapPlace
  rw [if_pos (by simp [hfixed, ha])]
  dsimp only
  rw [if_neg (by simp [hcontains])]
  generalize x.replaceSharedMappingsIn a (a + r.length) = x₁ at *
  have hplaces : (x₁.commitFixed a r.length (r.recorded ||| kGuestProtWrite)).1 = true ∧
      x₁.PlacesFixed (r.recorded ||| kGuestProtWrite) a r.length
        (x₁.commitFixed a r.length (r.recorded ||| kGuestProtWrite)).2 := by
    refine commitFixed_places (by rw [hsp₁]; exact hs) hh₁ _ hpos ?_
    unfold Inside
    rw [hsp₁]
    exact hin
  have hafter := hplaces.2.after hsp₁ hcalls₁ hmem₁ hq₁
  have hgone : ∀ y, a.toNat ≤ y → y < a.toNat + r.length.toNat → x.shared.OnRecord y →
      (x₁.commitFixed a r.length (r.recorded ||| kGuestProtWrite)).2.host.view y = false := by
    intro y h1 h2 hrec
    have hoff := hview₁ y h1 h2 hrec
    rw [Bool.eq_false_iff] at hoff ⊢
    exact fun hv => hoff (hplaces.2.quiet.view y hv)
  rw [if_pos hplaces.1]
  refine ⟨_, rfl, ?_⟩
  split
  · refine ⟨hafter.notified _ _, ?_⟩
    unfold notifyContentsReplaced
    split
    · exact hgone
    · exact hgone
  · exact ⟨hafter, hgone⟩

theorem mmapFinish_host (x : Sys) (r : MmapRequest) (placed : UInt64) :
    (x.mmapFinish r placed).sys.host.mem = x.host.mem ∧
    x.host.Quiet (x.mmapFinish r placed).sys.host := by
  unfold mmapFinish
  split
  · exact ⟨rfl, Quiet.refl _⟩
  · refine ⟨?_, x.space.protect_quiet x.host placed r.length r.recorded⟩
    exact x.space.protect_mem x.host placed r.length r.recorded

theorem inside_of_mapped (hfixed : r.fixed = true)
    (hlow : x.space.base.toNat ≤ (x.mmapAddress r).toNat)
    (hfit : (x.mmapAddress r).toNat + r.length.toNat < 2 ^ 64) {answer : UInt64}
    (hok : (x.doMmap r).ret = .ok answer) :
    0 < r.length.toNat ∧ x.Inside (x.mmapAddress r) r.length := by
  have hbase := x.space.base_pos
  have hlen : r.length ≠ 0 := by
    intro h0
    unfold doMmap at hok
    rw [if_pos h0] at hok
    cases hok
  have ha : x.mmapAddress r ≠ 0 := ne_zero_of_toNat_pos (by omega)
  refine ⟨toNat_pos hlen, ?_⟩
  by_cases hc : x.space.contains (x.mmapAddress r) r.length = true
  · exact contains_mem hfit hc
  · have hplace : x.mmapPlace r (x.mmapAddress r) = (none, [], x) := by
      unfold mmapPlace
      rw [if_pos (by simp [hfixed, ha]), if_pos (by simp [hc])]
    rw [doMmap_refused hlen hplace] at hok
    cases hok

/-- An anonymous `MAP_FIXED` mapping that succeeds is committed and reads as
zero from end to end, and every byte that was committed outside it keeps its
value. A store goes through a view of a file only where the table of views has
none on record. -/
theorem mmap_fixed_reads_zero {x : Sys} (hs : x.space.ListInv) (hh : x.host.Succeeds)
    {r : MmapRequest} (hanon : r.anonymous = true) (hfixed : r.fixed = true)
    (hlow : x.space.base.toNat ≤ (x.mmapAddress r).toNat)
    (hfit : (x.mmapAddress r).toNat + r.length.toNat < 2 ^ 64) {answer : UInt64}
    (hok : (x.doMmap r).ret = .ok answer) :
    let a := (x.mmapAddress r).toNat
    let x' := (x.doMmap r).sys
    (∀ y, a ≤ y → y < a + r.length.toNat → x'.host.mem y = 0 ∧ Covers x'.space.committed y) ∧
    (∀ y, ¬ (a ≤ y ∧ y < a + r.length.toNat) → Covers x.space.committed y →
      x'.host.mem y = x.host.mem y ∧ Covers x'.space.committed y) ∧
    (∀ y, x'.host.through y = true → x.host.through y = true ∨
      (x.host.view y = true ∧ ¬ x.shared.OnRecord y)) := by
  obtain ⟨hpos, hin⟩ := inside_of_mapped hfixed hlow hfit hok
  have hlen : r.length ≠ 0 := fun h0 => by
    rw [h0, UInt64.toNat_zero] at hpos
    omega
  intro n x'
  have hx' : x' = (x.doMmap r).sys := rfl
  have hn : n = (x.mmapAddress r).toNat := rfl
  clear_value n x'
  obtain ⟨x₁, hplace, hp, hgone⟩ := mmapPlace_fixed_spec hs hh hfixed hpos hin
  rw [doMmap_placed hlen hplace, if_pos hanon, if_pos hanon] at hx'
  generalize x.mmapAddress r = a at *
  subst hn
  have hroom := x.space.limit_add_page
  have hend := hin.2
  have hsum := toNat_add_of_lt hfit
  have hlt : a.toNat < (a + r.length).toNat := by omega
  have hpage : x₁.space.page = x.space.page := congrArg Geometry.page hp.fixes.geometry
  have hspace₂ : (x₁.mmapNoteImage r a).space = x₁.space := mmapNoteImage_space x₁ r a
  have hhost₂ : (x₁.mmapNoteImage r a).host = x₁.host := mmapNoteImage_host x₁ r a
  generalize x₁.mmapNoteImage r a = x₂ at *
  have hin₂ : x₂.Inside a r.length := by
    unfold Inside
    rw [hspace₂, hp.fixes.geometry]
    exact hin
  obtain ⟨hc, hz⟩ := mmapAnonymous_clears (by rw [hhost₂]; exact hp.succeeds)
    hin₂ (committedIn x.space.committed a (a + r.length)) (fun g hg => by
      rw [← hsum]
      exact committedIn_inside hs.committed hlt hg)
  rw [hspace₂, hpage] at hz
  generalize x₂.mmapAnonymous r a (committedIn x.space.committed a (a + r.length)) = x₃ at *
  have hspace₃ : x₃.space = x₁.space := (congrArg GuestProcess.space hc.process).trans hspace₂
  obtain ⟨_, _, hsettle⟩ := mmapFinish_spec x₃ r a
  obtain ⟨hmem, hquiet⟩ := mmapFinish_host x₃ r a
  obtain ⟨_, _, hsame⟩ := settle_spec (s := x₃.space) (by rw [hspace₃]; exact hp.fixes.inv)
    x₃.host (a := a) r.recorded hpos (by rw [hspace₃]; omega)
  rw [← hsettle, ← hx'] at hsame
  rw [← hx'] at hmem hquiet
  have howned : ∀ y, x₁.space.layout.attr y ≠ none → Covers x'.space.committed y := by
    intro y hy
    by_contra hno
    rw [← hspace₃] at hy
    exact hy ((hsame.owned y).mp (tagAt_eq_none.mpr hno))
  have hdle := roundDown_le x.space.page a.toNat
  have hule := le_roundUp x.space.page_pos (a.toNat + r.length.toNat)
  refine ⟨fun y h1 h2 => ⟨?_, howned y (hp.owned y (by omega) (by omega))⟩,
    fun y hout hcov => ⟨?_, howned y ?_⟩, fun y hy => ?_⟩
  · rw [hmem]
    by_cases hfree : ∀ z ∈ pageOf x.space.page y, x.space.layout.attr z = none
    · refine hc.wipes.zero y ?_
      rw [hhost₂]
      exact hp.zero y h1 h2 hfree
    · -- The page has an owner, in the mapping or next to it.
      push Not at hfree
      obtain ⟨z, hz', hown⟩ := hfree
      refine hz y h1 h2 z hz' ?_
      by_cases hzin : a.toNat ≤ z ∧ z < a.toNat + r.length.toNat
      · refine .inl (covers_committedIn hs.committed hzin.1 (by omega) ?_)
        by_contra hno
        exact hown (tagAt_eq_none.mpr hno)
      · exact .inr hzin
  · rw [hmem, hc.wipes.rest y hout, hhost₂]
    refine hp.rest y ⟨y, rfl, fun hno => ?_⟩
    exact tagAt_eq_none.mp hno hcov
  · exact hp.kept y fun h => tagAt_eq_none.mp h hcov
  · rw [hquiet.through] at hy
    rcases hc.wipes.through y hy with hy | ⟨hin', hv⟩
    · rw [hhost₂, hp.quiet.through] at hy
      exact .inl hy
    · rw [hhost₂] at hv
      refine .inr ⟨hp.quiet.view y hv, fun hrec => ?_⟩
      rw [hgone y hin'.1 hin'.2 hrec] at hv
      cases hv

def sevens : Sys :=
  ⟨⟨false, 0, onePage.space, .new false 0, LinuxSyscalls.new_agrees⟩, .empty,
    onePage.host.store 0x100010000 0x4000 fun _ => 7⟩

def secondGuestPage : MmapRequest := ⟨0x100011000, 0x1000, 3, 0x32, none, 0, 0⟩

theorem mmap_fixed_reads_zero_sevens : sevens.host.mem 0x100011000 = 7 ∧
      (sevens.doMmap secondGuestPage).sys.host.mem 0x100011000 = 0 ∧
      (sevens.doMmap secondGuestPage).sys.host.mem 0x100012000 = sevens.host.mem 0x100012000 := by
  have hok : (sevens.doMmap secondGuestPage).ret = .ok 0x100011000 := by rfl
  obtain ⟨hzero, hkeep, _⟩ := mmap_fixed_reads_zero (x := sevens) listInv_onePage
    succeeds_onePage rfl rfl (by decide) (by decide) hok
  exact ⟨rfl, (hzero 0x100011000 (by decide) (by decide)).1,
    (hkeep 0x100012000 (by decide) (tagAt_isSome.mp (by decide))).1⟩

end Sys

end Fathom
