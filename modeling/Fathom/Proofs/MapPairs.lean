import Fathom.Proofs.Syscalls
import Fathom.Proofs.Wrap

/-!
# What an mmap and its munmap leave behind

An anonymous `mmap` without a hint takes whole host pages. The `munmap` of the same
length gives back the guest's pages of it, and only host pages nobody is left on become
free again.
-/

namespace Fathom

open Lib Spanned Geometry

namespace GuestAddressSpace

variable {s : GuestAddressSpace}

def settle (s : GuestAddressSpace) (h : Host) (a n : UInt64) (p : Prot) : GuestAddressSpace :=
  if p.has kGuestProtWrite then s else (s.protect h a n p).space

/-! ## A length that rounds -/

variable {a n : UInt64} {s' : GuestAddressSpace}

theorem settle_spec (hs : s.ListInv) (h : Host) (p : Prot) (hpos : 0 < n.toNat)
    (hfit : a.toNat + n.toNat + s.page ≤ 2 ^ 64) : (s.settle h a n p).ListInv ∧
    (s.settle h a n p).toGeometry = s.toGeometry ∧ s.layout.Same (s.settle h a n p).layout := by
  unfold settle
  split
  · exact ⟨hs, rfl, fun _ => Iff.rfl, rfl⟩
  · obtain ⟨hinv, hgeo, hre⟩ := protect_spec hs h p hfit fun hdeg => by
      have := hdeg.1
      omega
    refine ⟨hinv, hgeo, fun x => ?_, hre.free⟩
    rw [← Option.not_isSome_iff_eq_none, ← Option.not_isSome_iff_eq_none,
      (hre.widens s.page_pos).isSome_iff]

theorem release_allocated_same_iff (hs : s.ListInv) (h₁ h₂ h₃ : Host) (p q : Prot)
    (hpos : 0 < n.toNat) (hfit : n.toNat + s.page ≤ 2 ^ 64) (hret : (s.allocate h₁ n 0 p).ret ≠ 0) :
    let a := (s.allocate h₁ n 0 p).ret
    let s' := (((s.allocate h₁ n 0 p).space.settle h₂ a n q).release h₃ a n).space
    s'.ListInv ∧ s'.toGeometry = s.toGeometry ∧
      (s.layout.Same s'.layout ↔ roundUp 4096 n.toNat = roundUp s.page n.toNat) := by
  obtain ⟨hs₁, hgeo₁, ⟨h0, _⟩ | ⟨a, _, hlen, ht, ha, hlay⟩⟩ :=
    allocate_spec hs h₁ p (allocFits_unhinted hpos hfit)
  · exact absurd h0 hret
  dsimp only
  rw [ha]
  generalize (s.allocate h₁ n 0 p).space = s₁ at hs₁ hgeo₁ hlay ⊢
  have hmem := ht.mem_arena hs
  have hroom := s.limit_add_page
  have hup := le_roundUp s.page_pos n.toNat
  have hpage₁ : s₁.page = s.page := congrArg page hgeo₁
  obtain ⟨hs₂, hgeo₂, hsame⟩ := settle_spec hs₁ h₂ (a := a) q hpos (by omega)
  generalize s₁.settle h₂ a n q = s₂ at hs₂ hgeo₂ hsame ⊢
  have hgeo := hgeo₂.trans hgeo₁
  have hpage : s₂.page = s.page := congrArg page hgeo
  have hbase : s₂.base = s.base := congrArg base hgeo
  have hlimit : s₂.limit = s.limit := congrArg limit hgeo
  obtain ⟨_, hs₃, hgeo₃, hdrop⟩ := release_spec hs₂ h₃ (a := a) hpos (by rw [hbase]; exact hmem.1)
    (by omega)
  have hgrain := s.guestPage_dvd_page
  have hdvd := Nat.dvd_trans hgrain ht.start
  rw [hpage, roundDown_of_dvd hdvd, roundUp_add_of_dvd (by omega) hdvd] at hdrop
  refine ⟨hs₃, hgeo₃.trans hgeo, ?_⟩
  rw [hdrop]
  refine Layout.same_drop_iff s.page_pos hs.apart ht.start
    (dvd_roundUp _ _) ?_ ?_ ?_ (fun x => ?_) ?_
  · have := le_roundUp (p := 4096) (by omega) n.toNat
    omega
  · exact (roundUp_le_iff (by omega) (Nat.dvd_trans hgrain (dvd_roundUp _ _))).mpr hup
  · rw [← hlen]
    exact ht.free
  · rw [hsame.owned, hlay, hlen, Layout.place_attr]
    split
    next hx => simp [hx]
    next hx => simp [hx]
  · rw [hsame.free, hlay, hlen, Layout.place_free]

/-! ## A length that wraps -/

theorem takeFreeExtent_nothing {l : List Extent} : ∀ {l' : List Extent}, Fits l →
    takeFreeExtent l a 0 = some l' → ∀ x, Covers l' x ↔ Covers l x := by
  induction l with
  | nil =>
    intro l' _ h
    cases h
  | cons e _ ih =>
    intro l' hl h x
    have hs := stop_toNat (hl e (by simp))
    rw [takeFreeExtent] at h
    simp only [UInt64.add_zero] at h
    split at h
    · obtain ⟨_, hl₁, rfl⟩ := Option.map_eq_some_iff.mp h
      rw [covers_cons, covers_cons, ih (fun r hr => hl r (by simp [hr])) hl₁]
    next hin =>
      rw [gt_iff_lt, UInt64.lt_iff_toNat_lt, UInt64.lt_iff_toNat_lt] at hin
      have hlow : e.begin.toNat ≤ a.toNat := by omega
      have hhead : (a - e.begin).toNat = a.toNat - lo e := toNat_sub_of_le hlow
      have htail : (Spanned.stop e - a).toNat = hi e - a.toNat := by
        rw [toNat_sub_of_le (by omega), hs]
      -- The two parts of the extent, together all of it.
      have hleft : Has (⟨e.begin, a - e.begin⟩ : Extent) x ↔ lo e ≤ x ∧ x < a.toNat := by
        change lo e ≤ x ∧ x < lo e + (a - e.begin).toNat ↔ _
        omega
      have hright : Has (⟨a, Spanned.stop e - a⟩ : Extent) x ↔ a.toNat ≤ x ∧ x < hi e := by
        change a.toNat ≤ x ∧ x < a.toNat + (Spanned.stop e - a).toNat ↔ _
        omega
      change lo e ≤ a.toNat at hlow
      have hwhole : Has e x ↔ (lo e ≤ x ∧ x < a.toNat) ∨ (a.toNat ≤ x ∧ x < hi e) := by
        unfold Has
        omega
      have hz : ∀ v : UInt64, v = 0 → v.toNat = 0 := fun v hv => by rw [hv]; rfl
      split at h
      next h0 =>
        cases h
        have := hz _ h0.1
        have := hz _ h0.2
        rw [covers_cons, hwhole]
        constructor
        · exact .inr
        · rintro (hx | hx)
          · omega
          · exact hx
      · split at h
        next h0 =>
          cases h
          have := hz _ h0
          rw [covers_cons, covers_cons, hwhole, hright]
          refine or_congr ?_ Iff.rfl
          omega
        · split at h
          next h0 =>
            cases h
            have := hz _ h0
            rw [covers_cons, covers_cons, hwhole, hleft]
            refine or_congr ?_ Iff.rfl
            omega
          · cases h
            rw [covers_cons, covers_cons, covers_cons, hwhole, hleft, hright, or_assoc]

theorem firstFit_nothing {free : List Extent} (hf : Fits free) {low : UInt64} :
    ∀ {extents : List Extent}, (∀ e ∈ extents, e ∈ free) →
    ∀ {a : UInt64} {f : List Extent}, firstFit free low 0 extents = some (a, f) →
    takeFreeExtent free a 0 = some f ∧
      ∃ e ∈ free, Has e a.toNat ∧ (a.toNat = lo e ∨ a = low) := by
  intro extents
  induction extents with
  | nil =>
    intro _ a free' h
    cases h
  | cons e _ ih =>
    intro hsub a free' h
    have ih := ih (fun e' he' => hsub e' (by simp [he'])) (a := a) (f := free')
    have he := hsub e (by simp)
    have hs := stop_toNat (hf e he)
    rw [firstFit] at h
    split at h
    · exact ih h
    next hroom =>
      rw [ge_iff_le, UInt64.le_iff_toNat_le] at hroom
      have hfrom := toNat_wordMax e.begin low
      split at h
      next free₁ htake =>
        cases h
        refine ⟨htake, e, he, ?_, ?_⟩
        · change e.begin.toNat ≤ _ ∧ _
          omega
        · unfold wordMax
          split
          · exact .inr rfl
          · exact .inl rfl
      · exact ih h

theorem ListInv.findFit_nothing (hs : s.ListInv) {free' : List Extent}
    (h : s.findFit 0 = some (a, free')) :
    takeFreeExtent s.free a 0 = some free' ∧ Covers s.free a.toNat ∧ s.page ∣ a.toNat := by
  have hfit := hs.free.wf.fits
  have hfound : ∀ {low : UInt64}, s.page ∣ low.toNat →
      GuestAddressSpace.firstFit s.free low 0 s.free = some (a, free') →
      takeFreeExtent s.free a 0 = some free' ∧ Covers s.free a.toNat ∧ s.page ∣ a.toNat := by
    intro low hlow hf
    obtain ⟨htake, e, he, hin, hstart⟩ := firstFit_nothing hfit (fun _ h => h) hf
    refine ⟨htake, ⟨e, he, hin⟩, ?_⟩
    rcases hstart with ha | rfl
    · rw [ha]
      exact (hs.freeEdges e he).1.1
    · exact hlow
  have hfloor : s.page ∣ (s.alignUp s.floor).toNat := by
    exact (s.toNat_alignDown _) ▸ dvd_roundDown _ _
  unfold GuestAddressSpace.findFit at h
  dsimp only at h
  split at h
  next found hsome =>
    cases h
    split at hsome
    · exact hfound hfloor hsome
    · cases hsome
  · exact hfound (Nat.dvd_zero _) h

/-- Nothing changed that a byte could tell, though an empty range may have come
in. -/
structure SameLayout (s s' : GuestAddressSpace) : Prop where
  geometry : s'.toGeometry = s.toGeometry
  fits : Fits s'.committed
  same : s.layout.Same s'.layout

theorem same_of_covers (hfree : ∀ x, Covers s'.free x ↔ Covers s.free x)
    (hcom : ∀ x, Covers s'.committed x ↔ Covers s.committed x) : s.layout.Same s'.layout := by
  refine ⟨fun x => ?_, Set.ext hfree⟩
  rw [layout_attr, layout_attr, tagAt_eq_none, tagAt_eq_none, hcom]

theorem SameLayout.notify (h : s.SameLayout s') (b e : UInt64) : s.SameLayout (s'.notify b e) := by
  obtain ⟨hgeo, _, hcom, _⟩ := notify_fields s' b e
  refine ⟨hgeo.trans h.geometry, by rw [hcom]; exact h.fits, ?_⟩
  rw [notify_layout]
  exact h.same

theorem recordCommitted_nothing (hfit : Fits s.committed) {p : Prot} :
    Fits (s.recordCommitted a 0 p).committed ∧
    ∀ x, Covers (s.recordCommitted a 0 p).committed x ↔ Covers s.committed x := by
  have hhi : hi (s.newRange a 0 p) < 2 ^ 64 := toNat_lt_word a
  have hempty : ∀ x, ¬ Has (s.newRange a 0 p) x := by
    intro x hx
    change a.toNat ≤ x ∧ x < a.toNat + 0 at hx
    omega
  rw [recordCommitted_committed]
  refine ⟨hfit.overwrite hhi, fun x => ?_⟩
  rw [covers_iff_holds, covers_iff_holds]
  refine exists_congr fun t => ?_
  rw [hfit.holds_overwrite hhi]
  simp [hempty]

theorem allocate_wrapped (hs : s.ListInv) (h : Host) (p : Prot) (hn : 2 ^ 64 < n.toNat + s.page)
    (hret : (s.allocate h n 0 p).ret ≠ 0) : s.SameLayout (s.allocate h n 0 p).space ∧
    Covers s.free (s.allocate h n 0 p).ret.toNat ∧ s.page ∣ (s.allocate h n 0 p).ret.toNat := by
  obtain ⟨k, _, -, hk⟩ := s.page_pow
  have hzero : s.alignUp n = 0 := maskUp_wraps hk hn
  unfold allocate at hret ⊢
  split at hret
  · exact absurd rfl hret
  next hne =>
    rw [if_neg hne]
    dsimp only at hret ⊢
    rw [hzero, takeHint_zero] at hret ⊢
    dsimp only at hret ⊢
    split at hret
    next a free hfound =>
      obtain ⟨htake, hcov, hdvd⟩ := hs.findFit_nothing hfound
      unfold commitTaken at hret ⊢
      dsimp only at hret ⊢
      split at hret
      next hok =>
        rw [if_pos hok, if_neg fun hc => absurd hc.2 (by simp)]
        refine ⟨⟨recordCommitted_geometry _ _ _ _, ?_, same_of_covers ?_ ?_⟩, hcov, hdvd⟩
        · exact (recordCommitted_nothing hs.committed.fits).1
        · exact takeFreeExtent_nothing hs.free.wf.fits htake
        · exact (recordCommitted_nothing hs.committed.fits).2
      · exact absurd rfl hret
    · exact absurd rfl hret

theorem alignUp_eq {v : UInt64} (ha : s.page ∣ a.toNat) (hle : v.toNat ≤ a.toNat)
    (hlt : a.toNat < v.toNat + s.page) : s.alignUp v = a := by
  have hroom := add_le_of_dvd_of_lt ha s.page_dvd_word (toNat_lt_word a)
  apply UInt64.toNat_inj.mp
  rw [toNat_alignUp (by omega)]
  have hup := le_roundUp s.page_pos v.toNat
  have hno := (roundUp_le_iff s.page_pos ha).mpr hle
  have hge : ¬ roundUp s.page v.toNat < a.toNat := fun hcon => by
    have := add_le_of_dvd_of_lt (dvd_roundUp _ _) ha hcon
    omega
  omega

theorem toNat_wrapped (hbase : s.base.toNat ≤ a.toNat) (hn : 2 ^ 64 < n.toNat + s.page) :
    (a + n).toNat < a.toNat ∧ a.toNat < (a + n).toNat + s.page := by
  have hpage := Nat.le_of_dvd s.base_pos s.base_aligned
  change s.page ≤ _ at hpage
  have ha := toNat_lt_word a
  have hn' := toNat_lt_word n
  rw [UInt64.toNat_add]
  omega

theorem not_across {l : List GuestRange} {a : Nat} (hno : ¬ Covers l a) :
    ∀ r ∈ l, ¬ (lo r < a ∧ a < hi r) :=
  fun r hr hx => hno ⟨r, hr, Nat.le_of_lt hx.1, hx.2⟩

theorem settle_wrapped {h : Host} {q : Prot} (hfit : Fits s.committed)
    (hbase : s.base.toNat ≤ a.toNat) (ha : s.page ∣ a.toNat) (hno : ¬ Covers s.committed a.toNat)
    (hn : 2 ^ 64 < n.toNat + s.page) : s.settle h a n q = s := by
  obtain ⟨hlt, hnear⟩ := toNat_wrapped hbase hn
  have hdown : s.alignDown a = a := UInt64.toNat_inj.mp (by
    rw [toNat_alignDown, roundDown_of_dvd ha])
  have hup : s.alignUp (a + n) = a := alignUp_eq ha hlt.le hnear
  have htouch : (s.committed.any fun range =>
      !(decide (Spanned.stop range ≤ a) || decide (range.begin ≥ a))) = false := by
    rw [List.any_eq_false]
    intro r hr htrue
    simp only [Bool.not_eq_true', Bool.or_eq_false_iff, decide_eq_false_iff_not,
      UInt64.le_iff_toNat_le, stop_toNat (hfit r hr)] at htrue
    exact not_across hno r hr ⟨Nat.lt_of_not_le htrue.2, Nat.lt_of_not_le htrue.1⟩
  unfold settle
  split
  · rfl
  · unfold protect protectLocked
    dsimp only
    rw [hdown, hup, htouch, if_neg Bool.false_ne_true, if_neg fun hc => absurd hc.1 (by simp)]

theorem uncommittedFrom_self (e : UInt64) (l : List GuestRange) : uncommittedFrom e e l = [] := by
  cases l with
  | nil => simp [uncommittedFrom]
  | cons r _ =>
    rw [uncommittedFrom]
    split
    · simp
    next hlt =>
      rw [ge_iff_le, UInt64.le_iff_toNat_le] at hlt
      have hmax := toNat_wordMax e (Spanned.stop r)
      rw [if_pos (by rw [ge_iff_le, UInt64.le_iff_toNat_le]; omega),
        if_neg (by rw [gt_iff_lt, UInt64.lt_iff_toNat_lt]; omega)]

theorem release_wrapped {h : Host} (hfit : Fits s.committed) (hbase : s.base.toNat ≤ a.toNat)
    (ha : s.page ∣ a.toNat) (hno : ¬ Covers s.committed a.toNat) (hn : 2 ^ 64 < n.toNat + s.page) :
    s.SameLayout (s.release h a n).space := by
  obtain ⟨hlt, hnear⟩ := toNat_wrapped hbase hn
  have hgrain := Nat.dvd_trans s.guestPage_dvd_page ha
  have hroom := add_le_of_dvd_of_lt ha s.page_dvd_word (toNat_lt_word a)
  have hdown : maskDown kGuestPage a = a := UInt64.toNat_inj.mp (by
    rw [toNat_guestDown, roundDown_of_dvd hgrain])
  have hstop := toNat_guestUp (v := a + n) (by omega)
  have hstop₁ := le_roundUp (p := 4096) (by omega) (a + n).toNat
  have hstop₂ := (roundUp_le_iff (by omega) hgrain).mpr hlt.le
  unfold release
  split
  · exact ⟨rfl, hfit, fun _ => Iff.rfl, rfl⟩
  · dsimp only
    rw [hdown]
    generalize maskUp kGuestPage (a + n) = stop at *
    have hcut : s.committed.flatMap (cut a stop fun _ => []) = s.committed := by
      refine hfit.flatMap_cut_of_not_meets fun r hr hm => not_across hno r hr ?_
      unfold Meets at hm
      omega
    split
    · exact ⟨rfl, hfit, fun _ => Iff.rfl, rfl⟩
    · have hal : s.alignDown a = a := UInt64.toNat_inj.mp (by
        rw [toNat_alignDown, roundDown_of_dvd ha])
      have hau : s.alignUp stop = a := alignUp_eq ha (by omega) (by omega)
      have hgaps : uncommittedIn (coalesce s.committed)
          (alignDown { s with committed := coalesce s.committed } a)
          (alignUp { s with committed := coalesce s.committed } stop) = [] := by
        change uncommittedIn _ (s.alignDown a) (s.alignUp stop) = []
        rw [hal, hau]
        exact uncommittedFrom_self a _
      have hsame : s.SameLayout { s with committed := coalesce s.committed } := by
        refine ⟨rfl, hfit.join, same_of_covers (fun _ => Iff.rfl) fun x => ?_⟩
        rw [covers_iff_holds, covers_iff_holds]
        exact exists_congr fun t => hfit.holds_join
      rw [hcut, hgaps]
      split
      · exact hsame.notify _ _
      · exact hsame

theorem release_allocated_wrapped (hs : s.ListInv) (h₁ h₂ h₃ : Host) (p q : Prot)
    (hn : 2 ^ 64 < n.toNat + s.page) (hret : (s.allocate h₁ n 0 p).ret ≠ 0) :
    let a := (s.allocate h₁ n 0 p).ret
    s.layout.Same (((s.allocate h₁ n 0 p).space.settle h₂ a n q).release h₃ a n).space.layout := by
  obtain ⟨hsame, hcov, ha⟩ := allocate_wrapped hs h₁ p hn hret
  have hbase := (hs.free_mem hcov).1
  have hno := hs.not_covers hcov
  dsimp only
  generalize (s.allocate h₁ n 0 p).ret = a at *
  generalize (s.allocate h₁ n 0 p).space = s₁ at *
  have hpage : s₁.page = s.page := congrArg page hsame.geometry
  have hbase₁ : s₁.base = s.base := congrArg base hsame.geometry
  have hno₁ : ¬ Covers s₁.committed a.toNat := by
    rw [← tagAt_eq_none] at hno ⊢
    exact (hsame.same.owned a.toNat).mpr hno
  rw [← hpage] at ha hn
  rw [← hbase₁] at hbase
  rw [settle_wrapped hsame.fits hbase ha hno₁ hn]
  exact hsame.same.trans (release_wrapped hsame.fits hbase ha hno₁ hn).same

end GuestAddressSpace

/-! ## The two calls -/

namespace Sys

open GuestAddressSpace

variable {x : Sys}

def numbers (x : Sys) : UInt64 × UInt64 × UInt64 × UInt64 :=
  (x.process.syscalls.guestBase, x.process.syscalls.heapBase, x.process.syscalls.heapLimit,
    x.process.syscalls.heapBreak)

variable {x' : Sys}

theorem numbers_of_calls (h : x'.process.syscalls = x.process.syscalls) :
    x'.numbers = x.numbers := by
  unfold numbers
  rw [h]

theorem numbers_fields (h : x'.numbers = x.numbers) : x'.process.syscalls.guestBase =
    x.process.syscalls.guestBase ∧ x'.process.syscalls.heapBase = x.process.syscalls.heapBase ∧
    x'.process.syscalls.heapLimit = x.process.syscalls.heapLimit ∧ x'.process.syscalls.heapBreak =
    x.process.syscalls.heapBreak := by
  unfold numbers at h
  simpa using h

/-- The heap's reservation lies in the arena, `low` bytes or more from its start, and the break
in the reservation. -/
structure HeapWithin (x : Sys) (low : Nat) : Prop where
  start : x.space.base.toNat + low ≤
    x.process.syscalls.heapBase.toNat + x.process.syscalls.guestBase.toNat
  grown : x.process.syscalls.heapBase.toNat ≤ x.process.syscalls.heapBreak.toNat
  room : x.process.syscalls.heapBreak.toNat ≤ x.process.syscalls.heapLimit.toNat
  stop : x.process.syscalls.heapLimit.toNat + x.process.syscalls.guestBase.toNat ≤ x.space.limit

section

variable {low : Nat} (h : x.HeapWithin low) (hgeo : x'.space.toGeometry = x.space.toGeometry)
include h hgeo

theorem HeapWithin.of_numbers (hnum : x'.numbers = x.numbers) : x'.HeapWithin low := by
  obtain ⟨hoff, hbase, hlim, hbrk⟩ := numbers_fields hnum
  exact ⟨by rw [hgeo, hbase, hoff]; exact h.start, by rw [hbase, hbrk]; exact h.grown,
    by rw [hbrk, hlim]; exact h.room, by rw [hlim, hoff, hgeo]; exact h.stop⟩

theorem HeapWithin.limited {v : UInt64}
    (hcalls : x'.process.syscalls = { x.process.syscalls with heapLimit := v })
    (hbreak : x.process.syscalls.heapBreak.toNat ≤ v.toNat)
    (hlimit : v.toNat ≤ x.process.syscalls.heapLimit.toNat) : x'.HeapWithin low := by
  refine ⟨by rw [hgeo, hcalls]; exact h.start, by rw [hcalls]; exact h.grown,
    by rw [hcalls]; exact hbreak, ?_⟩
  rw [hgeo, hcalls]
  exact Nat.le_trans (Nat.add_le_add_right hlimit _) h.stop

end

theorem mmapNoteImage_numbers (x : Sys) (r : MmapRequest) (placed : UInt64) :
    (x.mmapNoteImage r placed).numbers = x.numbers := by
  unfold mmapNoteImage
  split <;> rfl

theorem mmapFinish_spec (x : Sys) (r : MmapRequest) (placed : UInt64) :
    (x.mmapFinish r placed).ret = .ok (x.toGuest placed) ∧
    (x.mmapFinish r placed).sys.numbers = x.numbers ∧
    (x.mmapFinish r placed).sys.space = x.space.settle x.host placed r.length r.recorded := by
  unfold mmapFinish GuestAddressSpace.settle
  split
  · exact ⟨rfl, rfl, rfl⟩
  · exact ⟨rfl, rfl, rfl⟩

theorem mmapPlace_unhinted (x : Sys) (r : MmapRequest) :
    x.mmapPlace r 0 = if (x.allocate r.length 0 (r.recorded ||| kGuestProtWrite)).1 = 0
      then (none, [], (x.allocate r.length 0 (r.recorded ||| kGuestProtWrite)).2)
      else (some (x.allocate r.length 0 (r.recorded ||| kGuestProtWrite)).1, [],
        (x.allocate r.length 0 (r.recorded ||| kGuestProtWrite)).2) := by
  unfold mmapPlace
  rw [if_neg (by simp)]
  rfl

theorem toGuest_of_numbers (h : x'.numbers = x.numbers) (a : UInt64) : x'.toGuest a = x.toGuest a :=
  congrArg (a - ·) (congrArg Prod.fst h)

theorem toHost_of_numbers (h : x'.numbers = x.numbers) (a : UInt64) : x'.toHost a = x.toHost a :=
  congrArg (a + ·) (congrArg Prod.fst h)

variable {r : MmapRequest}

theorem doMmap_unhinted (hanon : r.anonymous = true) (haddr : r.address = 0) (hlen : r.length ≠ 0) :
    let out := x.allocate r.length 0 (r.recorded ||| kGuestProtWrite)
    (x.doMmap r).sys.numbers = x.numbers ∧
      ((out.1 = 0 ∧ (x.doMmap r).ret = .error enomem ∧ (x.doMmap r).sys.space = out.2.space) ∨
        (out.1 ≠ 0 ∧ (x.doMmap r).ret = .ok (x.toGuest out.1) ∧
          ∃ h, (x.doMmap r).sys.space = out.2.space.settle h out.1 r.length r.recorded)) := by
  have hplace : x.mmapPlace r (x.mmapAddress r) = x.mmapPlace r 0 := by
    unfold mmapAddress
    rw [haddr]
    rfl
  rw [mmapPlace_unhinted] at hplace
  have hnum : (x.allocate r.length 0 (r.recorded ||| kGuestProtWrite)).2.numbers = x.numbers := rfl
  generalize x.allocate r.length 0 (r.recorded ||| kGuestProtWrite) = out at hplace hnum ⊢
  by_cases h0 : out.1 = 0
  · rw [if_pos h0] at hplace
    rw [doMmap_refused hlen hplace]
    exact ⟨hnum, .inl ⟨h0, rfl, rfl⟩⟩
  · rw [if_neg h0] at hplace
    rw [doMmap_placed hlen hplace, if_pos hanon]
    have hproc := mmapAnonymous_process (out.2.mmapNoteImage r out.1) r out.1 []
    have hspace := (congrArg GuestProcess.space hproc).trans (mmapNoteImage_space out.2 r out.1)
    have hnum' := ((numbers_of_calls (congrArg GuestProcess.syscalls hproc)).trans
      (mmapNoteImage_numbers out.2 r out.1)).trans hnum
    generalize (out.2.mmapNoteImage r out.1).mmapAnonymous r out.1 [] = y at hspace hnum' ⊢
    obtain ⟨hret, hfin, hset⟩ := mmapFinish_spec y r out.1
    refine ⟨hfin.trans hnum', .inr ⟨h0, ?_, y.host, ?_⟩⟩
    · rw [hret, toGuest_of_numbers hnum']
    · rw [hset, show y.space = out.2.space from hspace]

theorem munmap_spec (x : Sys) (a n : UInt64) :
    ∃ h, (x.munmap a n).sys.space = (x.space.release h (x.toHost a) n).space :=
  ⟨_, rfl⟩

/-- The arena has the same bytes free and the same bytes committed. -/
def Restored (x x' : Sys) : Prop :=
  (∀ y, Covers x'.space.free y ↔ Covers x.space.free y) ∧
  ∀ y, Covers x'.space.committed y ↔ Covers x.space.committed y

theorem restored_iff : x.Restored x' ↔ x.space.layout.Same x'.space.layout := by
  constructor
  · exact fun h => same_of_covers h.1 h.2
  · intro h
    refine ⟨fun y => Set.ext_iff.mp h.free y, fun y => ?_⟩
    have := h.owned y
    rw [layout_attr, layout_attr, tagAt_eq_none, tagAt_eq_none] at this
    exact not_iff_not.mp this

/-- `munmap` gives back the pages that `mmap` took. -/
def Exact (x : Sys) (n : UInt64) : Prop := roundUp 4096 n.toNat = roundUp x.space.page n.toNat

/-- An `mmap` and the `munmap` of what it returned, if anything. -/
def mapAndUnmap (x : Sys) (r : MmapRequest) : Sys :=
  match (x.doMmap r).ret with
  | .ok a => ((x.doMmap r).sys.munmap a r.length).sys
  | .error _ => (x.doMmap r).sys

theorem mmap_munmap_spec (hanon : r.anonymous = true) (haddr : r.address = 0) {a : UInt64}
    (hok : (x.doMmap r).ret = .ok a) : r.length ≠ 0 ∧ ∃ h₁ h₂,
      let out := x.space.allocate x.host r.length 0 (r.recorded ||| kGuestProtWrite)
      out.ret ≠ 0 ∧ ((x.doMmap r).sys.munmap a r.length).sys.space =
        ((out.space.settle h₁ out.ret r.length r.recorded).release h₂ out.ret r.length).space := by
  have hlen : r.length ≠ 0 := by
    intro h0
    unfold doMmap at hok
    rw [if_pos h0] at hok
    cases hok
  obtain ⟨hnum, ⟨_, herr, _⟩ | ⟨hne, hret, h₁, hspace⟩⟩ := doMmap_unhinted hanon haddr hlen
  · rw [herr] at hok
    cases hok
  · rw [hret] at hok
    cases hok
    obtain ⟨h₂, hrel⟩ := munmap_spec (x.doMmap r).sys
      (x.toGuest (x.allocate r.length 0 (r.recorded ||| kGuestProtWrite)).1) r.length
    refine ⟨hlen, h₁, h₂, hne, ?_⟩
    rw [hrel, toHost_of_numbers hnum]
    congr 2
    exact UInt64.sub_add_cancel _ _

section

variable (hs : x.space.ListInv) (hanon : r.anonymous = true) (haddr : r.address = 0)
include hs hanon haddr

theorem munmap_same_iff {a : UInt64} (hok : (x.doMmap r).ret = .ok a)
    (hfit : r.length.toNat + x.space.page ≤ 2 ^ 64) :
    let y := ((x.doMmap r).sys.munmap a r.length).sys
    y.space.ListInv ∧ y.space.toGeometry = x.space.toGeometry ∧
      (x.space.layout.Same y.space.layout ↔ x.Exact r.length) := by
  obtain ⟨hlen, h₁, h₂, hne, hspace⟩ := mmap_munmap_spec hanon haddr hok
  dsimp only
  rw [hspace]
  exact release_allocated_same_iff hs x.host h₁ h₂ _ _ (toNat_pos hlen) hfit hne

theorem mapAndUnmap_same (hexact : x.Exact r.length)
    (hfit : r.length.toNat + x.space.page ≤ 2 ^ 64) :
    (x.mapAndUnmap r).space.ListInv ∧ (x.mapAndUnmap r).space.toGeometry = x.space.toGeometry ∧
    x.space.layout.Same (x.mapAndUnmap r).space.layout := by
  unfold mapAndUnmap
  cases hret : (x.doMmap r).ret with
  | ok a =>
    obtain ⟨hinv, hgeo, hiff⟩ := munmap_same_iff hs hanon haddr hret hfit
    exact ⟨hinv, hgeo, hiff.mpr hexact⟩
  | error e =>
    by_cases hlen : r.length = 0
    · have hsame : (x.doMmap r).sys = x := by
        unfold doMmap
        rw [if_pos hlen]
      rw [hsame]
      exact ⟨hs, rfl, fun _ => Iff.rfl, rfl⟩
    · obtain ⟨_, ⟨h0, _, hspace⟩ | ⟨_, hok, _⟩⟩ := doMmap_unhinted hanon haddr hlen
      · rw [hspace]
        obtain ⟨hinv, hgeo, ⟨_, hlay⟩ | ⟨b, n, _, ht, hb, _⟩⟩ := allocate_spec hs x.host
          (r.recorded ||| kGuestProtWrite) (allocFits_unhinted (toNat_pos hlen) hfit)
        · refine ⟨hinv, hgeo, fun y => ?_, ?_⟩
          · exact iff_of_eq (congrArg (· = none) (congrFun (congrArg Layout.attr hlay) y))
          · exact congrArg Layout.free hlay
        · -- Zero is no address of the arena.
          have hmem := (ht.mem_arena hs).1
          have hpos := x.space.base_pos
          change (x.allocate r.length 0 (r.recorded ||| kGuestProtWrite)).1 = b at hb
          rw [h0] at hb
          rw [← hb, UInt64.toNat_zero] at hmem
          omega
      · rw [hret] at hok
        cases hok

end

/-- An anonymous `mmap` without a hint leaves the heap alone, and the `munmap`
of what it returned restores the arena exactly when the length is rounded
alike by the two, or wraps. Any number of such pairs leaves the arena where it
was. -/
theorem munmap_restores_iff (hs : x.space.ListInv) :
    (∀ r a, r.anonymous = true → r.address = 0 → (x.doMmap r).ret = .ok a →
      (x.doMmap r).sys.numbers = x.numbers ∧ (x.Restored ((x.doMmap r).sys.munmap a r.length).sys ↔
          x.Exact r.length ∨ 2 ^ 64 < r.length.toNat + x.space.page)) ∧
    ∀ rs : List MmapRequest, (∀ r ∈ rs, r.anonymous = true ∧ r.address = 0 ∧
        x.Exact r.length ∧ r.length.toNat + x.space.page ≤ 2 ^ 64) →
      x.Restored (rs.foldl mapAndUnmap x) := by
  constructor
  · intro r a hanon haddr hok
    obtain ⟨hlen, h₁, h₂, hne, hspace⟩ := mmap_munmap_spec hanon haddr hok
    refine ⟨(doMmap_unhinted hanon haddr hlen).1, ?_⟩
    rw [restored_iff]
    by_cases hfit : r.length.toNat + x.space.page ≤ 2 ^ 64
    · rw [(munmap_same_iff hs hanon haddr hok hfit).2.2]
      exact ⟨.inl, fun h => h.resolve_right (by omega)⟩
    · have hn : 2 ^ 64 < r.length.toNat + x.space.page := by omega
      rw [hspace]
      exact iff_of_true (release_allocated_wrapped hs x.host h₁ h₂ _ _ hn hne) (.inr hn)
  · intro rs hrs
    rw [restored_iff]
    -- The invariant of the run: the lists are in order and say the same.
    suffices h : (rs.foldl mapAndUnmap x).space.ListInv ∧
        (rs.foldl mapAndUnmap x).space.toGeometry = x.space.toGeometry ∧
        x.space.layout.Same (rs.foldl mapAndUnmap x).space.layout from h.2.2
    induction rs generalizing x with
    | nil => exact ⟨hs, rfl, fun _ => Iff.rfl, rfl⟩
    | cons r _ ih =>
      obtain ⟨hanon, haddr, hexact, hfit⟩ := hrs r (by simp)
      obtain ⟨hinv, hgeo, hsame⟩ := mapAndUnmap_same hs hanon haddr hexact hfit
      have hpage : (x.mapAndUnmap r).space.page = x.space.page := congrArg page hgeo
      obtain ⟨hinv', hgeo', hsame'⟩ := ih hinv fun r' hr' => by
        unfold Exact
        rw [hpage]
        exact hrs r' (by simp [hr'])
      exact ⟨hinv', hgeo'.trans hgeo, hsame.trans hsame'⟩

def onePageArena : Geometry :=
  { oneMegabyte with
    size := 0x14000
    size_aligned := by decide
    size_pos := by decide
    fits := by decide }

def tight : Sys :=
  ⟨⟨false, 0, GuestAddressSpace.new onePageArena, .new false 0, LinuxSyscalls.new_agrees⟩, .empty,
    Host.fresh⟩

def oneGuestPage : MmapRequest := ⟨0, 0x1000, 3, 0x22, none, 0, 0⟩

theorem munmap_keeps_page : tight.space.ListInv ∧ oneGuestPage.anonymous = true ∧
    oneGuestPage.fixed = false ∧ (tight.doMmap oneGuestPage).ret = .ok 0x100010000 ∧
    ¬ tight.Restored ((tight.doMmap oneGuestPage).sys.munmap 0x100010000 0x1000).sys ∧
    ((tight.mapAndUnmap oneGuestPage).doMmap oneGuestPage).ret = .error enomem := by
  refine ⟨listInv_new _, by decide, by decide, by rfl, fun h => ?_, by rfl⟩
  have hkept : Covers ((tight.doMmap oneGuestPage).sys.munmap 0x100010000
      0x1000).sys.space.committed 0x100011000 := tagAt_isSome.mp (by decide)
  exact not_covers_nil _ ((h.2 _).mp hkept)

theorem munmap_restores_iff_tight : tight.space.ListInv ∧
      tight.Restored ([⟨0, 0x4000, 3, 0x22, none, 0, 0⟩].foldl mapAndUnmap tight) := by
  refine ⟨listInv_new _, (munmap_restores_iff (x := tight) (listInv_new _)).2 _ fun r hr => ?_⟩
  rw [List.mem_singleton.mp hr]
  exact ⟨by decide, rfl, rfl, by decide⟩

end Sys

/-! ## Bounds on the free list -/

def Within (low high : Nat) (l : List Extent) : Prop := ∀ e ∈ l, low ≤ lo e ∧ hi e ≤ high

section Bounds

variable {low high : Nat} {l : List Extent} {a n : UInt64}

theorem within_cons {e : Extent} :
    Within low high (e :: l) ↔ (low ≤ lo e ∧ hi e ≤ high) ∧ Within low high l := by
  unfold Within
  simp

theorem within_append {l₁ l₂ : List Extent} :
    Within low high (l₁ ++ l₂) ↔ Within low high l₁ ∧ Within low high l₂ := by
  exact List.forall_mem_append

theorem Within.takeFreeExtent (hhigh : high < 2 ^ 64) (hfit : a.toNat + n.toNat < 2 ^ 64) :
    ∀ {l l' : List Extent}, Within low high l → takeFreeExtent l a n = some l' →
    Within low high l' ∧ low ≤ a.toNat ∧ a.toNat + n.toNat ≤ high := by
  have hsum := toNat_add_of_lt hfit
  intro l
  induction l with
  | nil =>
    intro l' _ h
    cases h
  | cons e _ ih =>
    intro l' hl h
    obtain ⟨⟨hlo, hhi⟩, hrest⟩ := within_cons.mp hl
    have hs := stop_toNat (r := e) (by omega)
    rw [Fathom.takeFreeExtent] at h
    dsimp only at h
    split at h
    · obtain ⟨_, hl₁, rfl⟩ := Option.map_eq_some_iff.mp h
      obtain ⟨h₁, h₂⟩ := ih hrest hl₁
      exact ⟨within_cons.mpr ⟨⟨hlo, hhi⟩, h₁⟩, h₂⟩
    next hin =>
      rw [gt_iff_lt, UInt64.lt_iff_toNat_lt, UInt64.lt_iff_toNat_lt, hs] at hin
      change ¬ (a.toNat < lo e ∨ _) at hin
      have hhead : low ≤ lo (⟨e.begin, a - e.begin⟩ : Extent) ∧
          hi (⟨e.begin, a - e.begin⟩ : Extent) ≤ high := by
        have hsub : (a - e.begin).toNat = a.toNat - lo e :=
          toNat_sub_of_le (show lo e ≤ a.toNat by omega)
        change low ≤ lo e ∧ lo e + (a - e.begin).toNat ≤ high
        omega
      have htail : low ≤ lo (⟨a + n, Spanned.stop e - (a + n)⟩ : Extent) ∧
          hi (⟨a + n, Spanned.stop e - (a + n)⟩ : Extent) ≤ high := by
        have hsub : (Spanned.stop e - (a + n)).toNat = hi e - (a.toNat + n.toNat) := by
          rw [toNat_sub_of_le (by omega), hs, hsum]
        change low ≤ (a + n).toNat ∧ (a + n).toNat + (Spanned.stop e - (a + n)).toNat ≤ high
        omega
      refine ⟨?_, by omega, by omega⟩
      split at h
      · cases h
        exact hrest
      · split at h
        · cases h
          exact within_cons.mpr ⟨htail, hrest⟩
        · split at h
          · cases h
            exact within_cons.mpr ⟨hhead, hrest⟩
          · cases h
            exact within_cons.mpr ⟨hhead, within_cons.mpr ⟨htail, hrest⟩⟩

theorem Within.takeFreeSpan (hhigh : high < 2 ^ 64) (hl : Within low high l) (b e : UInt64) :
    Within low high (takeFreeSpan l b e) := by
  intro r hr
  obtain ⟨s, hs, hr⟩ := List.mem_flatMap.mp hr
  obtain ⟨hlo, hhi⟩ := hl s hs
  rcases (mem_cut (by omega)).mp hr with ⟨_, rfl⟩ | ⟨hm, ⟨hlt, rfl⟩ | hmid | ⟨hlt, rfl⟩⟩
  · exact ⟨hlo, hhi⟩
  · rw [lo_leftOf, hi_leftOf hlt.le]
    unfold Meets at hm
    omega
  · cases hmid
  · rw [lo_rightOf, hi_rightOf (by omega) hlt.le]
    unfold Meets at hm
    omega

theorem Within.insertFree (hhigh : high < 2 ^ 64) (hl : Within low high l) (ha : low ≤ a.toNat)
    (hn : a.toNat + n.toNat ≤ high) : Within low high (insertFree l a n) := by
  have hbefore : Within low high (l.takeWhile (·.begin < a)) :=
    fun e he => hl e ((List.takeWhile_sublist _).mem he)
  have hafter : Within low high (l.dropWhile (·.begin < a)) :=
    fun e he => hl e ((List.dropWhile_sublist _).mem he)
  -- Two extents that touch, made one.
  have hjoin : ∀ f g : Extent, (low ≤ lo f ∧ hi f ≤ high) → (low ≤ lo g ∧ hi g ≤ high) →
      Spanned.stop f = g.begin → low ≤ lo (⟨f.begin, f.size + g.size⟩ : Extent) ∧
        hi (⟨f.begin, f.size + g.size⟩ : Extent) ≤ high := by
    intro f g hf hg htouch
    have hs := stop_toNat (r := f) (by omega)
    rw [htouch] at hs
    change g.begin.toNat = f.begin.toNat + f.size.toNat at hs
    have h₁ : g.begin.toNat + g.size.toNat ≤ high := hg.2
    have hsum : (f.size + g.size).toNat = f.size.toNat + g.size.toNat := toNat_add_of_lt (by omega)
    refine ⟨hf.1, ?_⟩
    change f.begin.toNat + (f.size + g.size).toNat ≤ high
    omega
  unfold Fathom.insertFree
  dsimp only
  generalize l.dropWhile (·.begin < a) = after at hafter ⊢
  have hnext : Within low high ((joinNext ⟨a, n⟩ after).1 :: (joinNext ⟨a, n⟩ after).2) := by
    have hself : low ≤ lo (⟨a, n⟩ : Extent) ∧ hi (⟨a, n⟩ : Extent) ≤ high := ⟨ha, hn⟩
    cases after with
    | nil => exact within_cons.mpr ⟨hself, hafter⟩
    | cons _ _ =>
      rw [joinNext]
      split
      next htouch =>
        obtain ⟨hin, hrest⟩ := within_cons.mp hafter
        exact within_cons.mpr ⟨hjoin _ _ hself hin htouch, hrest⟩
      · exact within_cons.mpr ⟨hself, hafter⟩
  obtain ⟨hfreed, hrest⟩ := within_cons.mp hnext
  unfold joinPrevious
  split
  next last hlast =>
    have hmem := hbefore last (List.mem_of_getLast? hlast)
    split
    next htouch =>
      refine within_append.mpr ⟨fun e he => hbefore e (List.mem_of_mem_dropLast he), ?_⟩
      exact within_cons.mpr ⟨hjoin _ _ hmem hfreed htouch, hrest⟩
    · exact within_append.mpr ⟨hbefore, hnext⟩
  · exact hnext

theorem freePieces_within {stop : UInt64} : ∀ {cursor : UInt64}, a.toNat ≤ cursor.toNat →
    ∀ p ∈ freePieces stop cursor l, a.toNat ≤ p.1.toNat ∧ p.1.toNat + p.2.toNat ≤ stop.toNat := by
  induction l with
  | nil =>
    intro cursor hc p hp
    rw [freePieces] at hp
    split at hp
    next hlt =>
      rw [UInt64.lt_iff_toNat_lt] at hlt
      rw [List.mem_singleton.mp hp, toNat_sub_of_le hlt.le]
      dsimp only
      omega
    · cases hp
  | cons other _ ih =>
    intro cursor hc p hp
    rw [freePieces] at hp
    split at hp
    · exact ih hc p hp
    next hskip =>
      rw [ge_iff_le, UInt64.le_iff_toNat_le, UInt64.le_iff_toNat_le] at hskip
      rcases List.mem_append.mp hp with hp | hp
      · split at hp
        next hlt =>
          rw [gt_iff_lt, UInt64.lt_iff_toNat_lt] at hlt
          rw [List.mem_singleton.mp hp, toNat_sub_of_le hlt.le]
          dsimp only
          omega
        · cases hp
      · have hmax := toNat_wordMax cursor (Spanned.stop other)
        exact ih (by omega) p hp

theorem Within.returnFreeExtent (hhigh : high < 2 ^ 64) (hl : Within low high l)
    (ha : low ≤ a.toNat) (hn : a.toNat + n.toNat ≤ high) :
    Within low high (returnFreeExtent l a n) := by
  -- On the number of bytes: the pieces of an overlapping span are shorter.
  induction hk : n.toNat using Nat.strong_induction_on generalizing l a n with
  | _ k ih =>
    subst hk
    rw [Fathom.returnFreeExtent]
    split
    · exact hl
    · split
      next hov =>
        rw [List.foldl_attach (l := freePieces (a + n) a l)
          (f := fun acc p => Fathom.returnFreeExtent acc p.1 p.2)]
        have hsum : (a + n).toNat = a.toNat + n.toNat := toNat_add_of_lt (by omega)
        have hpieces : ∀ p ∈ freePieces (a + n) a l, p.2.toNat < n.toNat ∧
            low ≤ p.1.toNat ∧ p.1.toNat + p.2.toNat ≤ high := by
          intro p hp
          have h₁ := freePieces_lt le_rfl (.inr hov) p hp
          have h₂ := freePieces_within le_rfl p hp
          omega
        clear hov
        generalize freePieces (a + n) a l = pieces at hpieces ⊢
        induction pieces generalizing l with
        | nil => exact hl
        | cons p _ ihp =>
          obtain ⟨hlt, hplo, hphi⟩ := hpieces p (by simp)
          exact ihp (ih p.2.toNat hlt hl hplo hphi rfl) fun q hq => hpieces q (by simp [hq])
      · exact hl.insertFree hhigh ha hn

end Bounds

/-! ## The arena's calls -/

namespace GuestAddressSpace

variable {s : GuestAddressSpace} {low : Nat} {a n : UInt64}

def Bounded (s : GuestAddressSpace) (low : Nat) : Prop := Within low s.limit s.free

theorem Bounded.congr {s' : GuestAddressSpace} (hs : s.Bounded low)
    (hgeo : s'.toGeometry = s.toGeometry) (hfree : s'.free = s.free) : s'.Bounded low := by
  unfold Bounded
  rw [hgeo, hfree]
  exact hs

theorem bounded_new (g : Geometry) : (new g).Bounded (g.base.toNat + 65536) := by
  intro e he
  unfold new at he
  split at he
  next hlt =>
    have hk : kLowestUsable.toNat = 65536 := rfl
    have hfits := g.fits
    rw [gt_iff_lt, UInt64.lt_iff_toNat_lt] at hlt
    have hsum : (g.base + kLowestUsable).toNat = g.base.toNat + 65536 := toNat_add_of_lt (by omega)
    have hsub : (g.size - kLowestUsable).toNat = g.size.toNat - 65536 := toNat_sub_of_le (by omega)
    rw [List.mem_singleton.mp he]
    change g.base.toNat + 65536 ≤ (g.base + kLowestUsable).toNat ∧
      (g.base + kLowestUsable).toNat + (g.size - kLowestUsable).toNat ≤ g.base.toNat + g.size.toNat
    omega
  · cases he

theorem Bounded.mono (hs : s.Bounded low) {low' : Nat} (hle : low' ≤ low) : s.Bounded low' :=
  fun e he => ⟨hle.trans (hs e he).1, (hs e he).2⟩

theorem commitTaken_bounded {h : Host} {free : List Extent} {p : Prot}
    (hfree : Within low s.limit free) (ha : low ≤ a.toNat) (hn : a.toNat + n.toNat ≤ s.limit) :
    let out := s.commitTaken h free a n p
    out.space.Bounded low ∧ out.space.toGeometry = s.toGeometry ∧ (out.ret = 0 ∨ out.ret = a) := by
  have hrec : ({ s with free }.recordCommitted a n p).Bounded low :=
    Bounded.congr (s := { s with free }) hfree (recordCommitted_geometry _ _ _ _)
      (recordCommitted_free _ _ _ _)
  unfold commitTaken
  dsimp only
  split
  · split
    · exact ⟨hrec.congr (notify_fields _ _ _).1 (notify_fields _ _ _).2.1,
        (notify_fields _ _ _).1.trans (recordCommitted_geometry _ _ _ _), .inr rfl⟩
    · exact ⟨hrec, recordCommitted_geometry _ _ _ _, .inr rfl⟩
  · exact ⟨hfree.returnFreeExtent s.limit_lt ha hn, rfl, .inl rfl⟩

theorem firstFit_bounded (hs : s.Bounded low) {from' length : UInt64} :
    ∀ {extents : List Extent}, (∀ e ∈ extents, e ∈ s.free) → ∀ {a : UInt64} {f : List Extent},
        firstFit s.free from' length extents = some (a, f) → Within low s.limit f ∧ low ≤ a.toNat ∧
          a.toNat + length.toNat ≤ s.limit := by
  intro extents
  induction extents with
  | nil =>
    intro _ a free h
    cases h
  | cons e _ ih =>
    intro hsub a free h
    have ih := ih (fun e' he' => hsub e' (by simp [he'])) (a := a) (f := free)
    have hlim := s.limit_lt
    obtain ⟨_, hhi⟩ := hs e (hsub e (by simp))
    have hst := stop_toNat (r := e) (by omega)
    rw [firstFit] at h
    split at h
    · exact ih h
    next hroom =>
      rw [ge_iff_le, UInt64.le_iff_toNat_le, UInt64.lt_iff_toNat_lt] at hroom
      have hsub' := toNat_sub_of_le (a := Spanned.stop e) (b := wordMax e.begin from') (by omega)
      split at h
      next free₁ htake =>
        cases h
        exact Within.takeFreeExtent hlim (by omega) hs htake
      · exact ih h

theorem allocate_cases (hs : s.Bounded low) (h : Host) {size hint : UInt64} (p : Prot)
    (hfit : hint ≠ 0 → (s.alignDown hint).toNat + (s.alignUp size).toNat < 2 ^ 64) :
    s.allocate h size hint p = ⟨0, h, s⟩ ∨ ∃ a free, (Within low s.limit free ∧ low ≤ a.toNat ∧
        a.toNat + (s.alignUp size).toNat ≤ s.limit) ∧
        s.allocate h size hint p = s.commitTaken h free a (s.alignUp size) p := by
  have hlim := s.limit_lt
  unfold allocate
  split
  · exact .inl rfl
  · dsimp only
    split
    next a free htake =>
      unfold takeHint at htake
      dsimp only at htake
      split at htake
      next hhint =>
        obtain ⟨_, hfree', heq⟩ := Option.map_eq_some_iff.mp htake
        cases heq
        exact .inr ⟨_, _, Within.takeFreeExtent hlim (hfit hhint.1) hs hfree', rfl⟩
      · cases htake
    · split
      next a free hfound =>
        refine .inr ⟨a, free, ?_, rfl⟩
        unfold findFit at hfound
        dsimp only at hfound
        split at hfound
        next found habove =>
          cases hfound
          split at habove
          · exact firstFit_bounded hs (fun _ h => h) habove
          · cases habove
        · exact firstFit_bounded hs (fun _ h => h) hfound
      · exact .inl rfl

theorem protectLocked_fields (s : GuestAddressSpace) (h : Host) (a n : UInt64) (p : Prot) :
    (s.protectLocked h a n p).space.toGeometry = s.toGeometry ∧
    (s.protectLocked h a n p).space.free = s.free := by
  unfold protectLocked
  dsimp only
  split
  · split <;> exact ⟨rfl, rfl⟩
  · exact ⟨rfl, rfl⟩

theorem protect_fields (s : GuestAddressSpace) (h : Host) (a n : UInt64) (p : Prot) :
    (s.protect h a n p).space.toGeometry = s.toGeometry ∧
    (s.protect h a n p).space.free = s.free := by
  obtain ⟨hgeo, hfree⟩ := s.protectLocked_fields h a n p
  unfold protect
  dsimp only
  split
  · exact ⟨(notify_fields _ _ _).1.trans hgeo, (notify_fields _ _ _).2.1.trans hfree⟩
  · exact ⟨hgeo, hfree⟩

theorem commitGaps_bounded {p : Prot} (gaps : List (UInt64 × UInt64)) :
    ∀ {s : GuestAddressSpace} {h : Host}, s.Bounded low → (commitGaps p gaps s h).2.Bounded low ∧
        (commitGaps p gaps s h).2.toGeometry = s.toGeometry := by
  induction gaps with
  | nil =>
    intro s h hs
    exact ⟨hs, rfl⟩
  | cons g _ ih =>
    intro s h hs
    have hspan : ({ s with free := takeFreeSpan s.free g.1 g.2 }).Bounded low :=
      Within.takeFreeSpan s.limit_lt hs g.1 g.2
    rw [commitGaps]
    dsimp only
    split
    · have hrec := hspan.congr (recordCommitted_geometry _ g.1 (g.2 - g.1) p)
        (recordCommitted_free _ g.1 (g.2 - g.1) p)
      exact ⟨(ih hrec).1, (ih hrec).2.trans (recordCommitted_geometry _ _ _ _)⟩
    · exact ih hspan

theorem commitFixed_bounded (hs : s.Bounded low) (h : Host) (p : Prot)
    (hfit : (s.alignDown a).toNat ≤ (s.alignUp (a + n)).toNat) :
    (s.commitFixed h a n p).space.Bounded low ∧
    (s.commitFixed h a n p).space.toGeometry = s.toGeometry := by
  unfold commitFixed
  split
  · exact ⟨hs, rfl⟩
  · dsimp only
    generalize s.alignDown a = b at hfit ⊢
    generalize s.alignUp (a + n) = e at hfit ⊢
    split
    · exact ⟨hs, rfl⟩
    next hin =>
      have hsub := toNat_sub_of_le hfit
      split
      · obtain ⟨hlow, hgeo⟩ := commitGaps_bounded (uncommittedIn s.committed b e) hs
        obtain ⟨hgeo', hfree'⟩ := protectLocked_fields (commitGaps p (uncommittedIn s.committed b e)
          s h).2 (commitGaps p (uncommittedIn s.committed b e) s h).1 b (e - b) p
        exact ⟨hlow.congr hgeo' hfree', hgeo'.trans hgeo⟩
      next free htake =>
        have hword := toNat_lt_word e
        obtain ⟨hfree, hlo, hhi⟩ := Within.takeFreeExtent s.limit_lt (by omega) hs htake
        have hrec : ({ s with free }.recordCommitted b (e - b) p).Bounded low :=
          Bounded.congr (s := { s with free }) hfree (recordCommitted_geometry _ _ _ _)
            (recordCommitted_free _ _ _ _)
        split
        · split
          · exact ⟨hrec.congr (notify_fields _ _ _).1 (notify_fields _ _ _).2.1,
              (notify_fields _ _ _).1.trans (recordCommitted_geometry _ _ _ _)⟩
          · exact ⟨hrec, recordCommitted_geometry _ _ _ _⟩
        · exact ⟨hfree.returnFreeExtent s.limit_lt hlo hhi, rfl⟩

theorem uncommittedFrom_within {e : UInt64} {b : Nat} {l : List GuestRange} :
    ∀ {cursor : UInt64}, b ≤ cursor.toNat → ∀ g ∈ uncommittedFrom e cursor l,
    b ≤ g.1.toNat ∧ g.1.toNat < g.2.toNat ∧ g.2.toNat ≤ e.toNat := by
  have hwindow : ∀ {cursor : UInt64} {g : UInt64 × UInt64}, b ≤ cursor.toNat →
      g ∈ (if cursor < e then [(cursor, e)] else []) →
      b ≤ g.1.toNat ∧ g.1.toNat < g.2.toNat ∧ g.2.toNat ≤ e.toNat := by
    intro cursor g hc hg
    split at hg
    next hlt =>
      rw [List.mem_singleton.mp hg]
      exact ⟨hc, hlt, le_rfl⟩
    · cases hg
  induction l with
  | nil =>
    intro cursor hc g hg
    exact hwindow hc hg
  | cons r _ ih =>
    intro cursor hc g hg
    rw [uncommittedFrom] at hg
    split at hg
    · exact hwindow hc hg
    next hlt =>
      rw [ge_iff_le, UInt64.le_iff_toNat_le] at hlt
      have hgap : g ∈ (if r.begin > cursor then [(cursor, wordMin r.begin e)] else []) →
          b ≤ g.1.toNat ∧ g.1.toNat < g.2.toNat ∧ g.2.toNat ≤ e.toNat := by
        intro hg
        split at hg
        next hgt =>
          rw [gt_iff_lt, UInt64.lt_iff_toNat_lt] at hgt
          have hmin := toNat_wordMin r.begin e
          rw [List.mem_singleton.mp hg]
          dsimp only
          omega
        · cases hg
      have hmax := toNat_wordMax cursor (Spanned.stop r)
      dsimp only at hg
      split at hg
      · exact hgap hg
      · rcases List.mem_append.mp hg with hg | hg
        · exact hgap hg
        · exact ih (by omega) g hg

theorem freeGaps_bounded {gaps : List (UInt64 × UInt64)} :
    ∀ {f : List Extent}, Within low s.limit f →
    (∀ g ∈ gaps, low ≤ g.1.toNat ∧ g.1.toNat < g.2.toNat ∧ g.2.toNat ≤ s.limit) →
    Within low s.limit (s.freeGaps gaps f) := by
  induction gaps with
  | nil =>
    intro free hf _
    exact hf
  | cons g _ ih =>
    intro free hf hg
    obtain ⟨hlo, hlt, hhi⟩ := hg g (by simp)
    have hrest := fun g' hg' => hg g' (List.mem_cons_of_mem g hg')
    have hroom := s.limit_add_page
    have hup := toNat_alignUp (s := s) (v := g.1) (by omega)
    have hdown := s.toNat_alignDown g.2
    have h₁ := le_roundUp s.page_pos g.1.toNat
    have h₂ := roundDown_le s.page g.2.toNat
    refine ih (f := if s.alignDown g.2 > s.alignUp g.1
      then returnFreeExtent free (s.alignUp g.1) (s.alignDown g.2 - s.alignUp g.1)
      else free) ?_ hrest
    split
    next hgt =>
      rw [gt_iff_lt, UInt64.lt_iff_toNat_lt] at hgt
      have hsub := toNat_sub_of_le hgt.le
      exact hf.returnFreeExtent s.limit_lt (by omega) (by omega)
    · exact hf

theorem release_bounded (hs : s.Bounded low) (h : Host)
    (hrel : n ≠ 0 → s.base.toNat ≤ (maskDown kGuestPage a).toNat →
      low ≤ (s.alignDown (maskDown kGuestPage a)).toNat) : (s.release h a n).space.Bounded low ∧
      (s.release h a n).space.toGeometry = s.toGeometry := by
  unfold release
  split
  · exact ⟨hs, rfl⟩
  next hne =>
    replace hrel := hrel hne
    dsimp only
    generalize maskDown kGuestPage a = b at hrel ⊢
    generalize maskUp kGuestPage (a + n) = e
    split
    · exact ⟨hs, rfl⟩
    next hin =>
      rw [UInt64.lt_iff_toNat_lt, gt_iff_lt, UInt64.lt_iff_toNat_lt, s.toNat_limit] at hin
      have hstart := hrel (by omega)
      have hroom := s.limit_add_page
      have hstop : (s.alignUp e).toNat ≤ s.limit := by
        rw [toNat_alignUp (by omega), roundUp_le_iff s.page_pos s.page_dvd_limit]
        omega
      have hdone : ∀ committed, ({ s with
          committed
          free := s.freeGaps (uncommittedIn committed (s.alignDown b) (s.alignUp e))
            s.free }).Bounded low := by
        intro l
        change Within low s.limit (s.freeGaps _ s.free)
        refine freeGaps_bounded hs fun g hg => ?_
        have := uncommittedFrom_within hstart g hg
        omega
      split
      · exact ⟨(hdone _).congr (notify_fields _ _ _).1 (notify_fields _ _ _).2.1,
          (notify_fields _ _ _).1⟩
      · exact ⟨hdone _, rfl⟩

end GuestAddressSpace

end Fathom
