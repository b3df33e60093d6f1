import Fathom.Runtime.GuestMemory

/-!
# The free list: take, and give back

The three ways the free list changes, each as set arithmetic on a list in normal form;
then the committed list, which is searched by bisection, cut up and joined again.
-/

namespace Fathom

open Lib Spanned

/-! ## Taking -/

/-- The extent holds every byte of `[address, address + size)`. -/
def Extent.Contains (e : Extent) (address size : UInt64) : Prop :=
  lo e ≤ address.toNat ∧ address.toNat + size.toNat ≤ hi e

variable {address size : UInt64} {l : List Extent}

theorem not_contains_iff {e : Extent} (he : Proper e) (hfit : address.toNat + size.toNat < 2 ^ 64) :
    (address < e.begin ∨ address + size > Spanned.stop e) ↔ ¬ e.Contains address size := by
  rw [gt_iff_lt, UInt64.lt_iff_toNat_lt, UInt64.lt_iff_toNat_lt, stop_toNat he.fits,
    toNat_add_of_lt hfit]
  change address.toNat < lo e ∨ _ ↔ _
  unfold Extent.Contains
  omega

theorem takeFreeExtent_contained {e : Extent} {rest : List Extent} (he : Proper e)
    (hpos : 0 < size.toNat) (hfit : address.toNat + size.toNat < 2 ^ 64)
    (hc : e.Contains address size) : takeFreeExtent (e :: rest) address size =
      some (cut address (address + size) (fun _ => []) e ++ rest) := by
  have hsum := toNat_add_of_lt hfit
  have hs := stop_toNat he.fits
  rw [takeFreeExtent, if_neg (by rw [not_contains_iff he hfit]; exact not_not.mpr hc)]
  change e.begin.toNat ≤ _ ∧ _ at hc
  have hhead : (address - e.begin).toNat = address.toNat - e.begin.toNat := toNat_sub_of_le hc.1
  have htail : (Spanned.stop e - (address + size)).toNat = hi e - (address.toNat + size.toNat) := by
    rw [toNat_sub_of_le (by omega), hs, hsum]
  have hh0 : address - e.begin = 0 ↔ ¬ e.begin < address := by
    rw [← UInt64.toNat_inj, UInt64.lt_iff_toNat_lt]
    change _ = 0 ↔ _
    omega
  have ht0 : Spanned.stop e - (address + size) = 0 ↔ ¬ address + size < Spanned.stop e := by
    rw [← UInt64.toNat_inj, UInt64.lt_iff_toNat_lt, hs]
    change _ = 0 ↔ _
    omega
  have hmeet : ¬ (Spanned.stop e ≤ address ∨ address + size ≤ Spanned.begin e) := by
    rw [UInt64.le_iff_toNat_le, UInt64.le_iff_toNat_le, hs]
    change ¬ (_ ∨ _ ≤ e.begin.toNat)
    omega
  unfold cut
  rw [if_neg hmeet]
  simp only [hh0, ht0, List.append_nil]
  change _ = some ((if e.begin < address then [⟨e.begin, address - e.begin⟩] else []) ++
    (if address + size < Spanned.stop e
      then [⟨address + size, Spanned.stop e - (address + size)⟩] else []) ++ rest)
  by_cases h1 : e.begin < address <;>
    by_cases h2 : address + size < Spanned.stop e <;> simp [h1, h2]

section

variable (hl : Normal l) (hpos : 0 < size.toNat) (hfit : address.toNat + size.toNat < 2 ^ 64)
include hl hpos hfit

theorem takeFreeExtent_eq :
    (takeFreeExtent l address size = none ∧ ∀ e ∈ l, ¬ e.Contains address size) ∨
    (takeFreeExtent l address size = some (takeFreeSpan l address (address + size)) ∧
      ∃ e ∈ l, e.Contains address size) := by
  induction l with
  | nil => exact .inl ⟨rfl, fun _ h => absurd h (by simp)⟩
  | cons e rest ih =>
    obtain ⟨he, hlo, hrest⟩ := normal_cons.mp hl
    have hspan : takeFreeSpan (e :: rest) address (address + size) =
        cut address (address + size) (fun _ => []) e ++
          takeFreeSpan rest address (address + size) := List.flatMap_cons
    by_cases hc : e.Contains address size
    · right
      refine ⟨?_, e, List.mem_cons_self, hc⟩
      have hrest' : takeFreeSpan rest address (address + size) = rest := by
        apply hrest.wf.fits.flatMap_cut_of_not_meets
        intro r hr
        have := hlo r hr
        have := toNat_add_of_lt hfit
        unfold Extent.Contains at hc
        unfold Meets
        omega
      rw [hspan, hrest']
      exact takeFreeExtent_contained he hpos hfit hc
    · rw [takeFreeExtent, if_pos ((not_contains_iff he hfit).mpr hc)]
      rcases ih hrest with ⟨hn, hall⟩ | ⟨hsome, e', he', hc'⟩
      · left
        rw [hn]
        refine ⟨rfl, fun e' he' => ?_⟩
        rcases List.mem_cons.mp he' with rfl | he'
        · exact hc
        · exact hall e' he'
      · right
        have hlt := hlo e' he'
        -- The extent lies below the one that holds the span, so it is not cut.
        have hcut : cut address (address + size) (fun _ => []) e = [e] := by
          unfold cut
          rw [if_pos]
          left
          rw [UInt64.le_iff_toNat_le, stop_toNat he.fits]
          unfold Extent.Contains at hc'
          omega
        rw [hsome, hspan, hcut]
        exact ⟨rfl, e', List.mem_cons_of_mem _ he', hc'⟩

theorem takeFreeExtent_some {l' : List Extent} (h : takeFreeExtent l address size = some l') :
    l' = takeFreeSpan l address (address + size) ∧
    ∀ x, address.toNat ≤ x → x < address.toNat + size.toNat → Covers l x := by
  rcases takeFreeExtent_eq hl hpos hfit with ⟨hn, _⟩ | ⟨hs, e, he, hc⟩
  · rw [hn] at h
    cases h
  · rw [hs] at h
    refine ⟨(Option.some.inj h).symm, fun x h1 h2 => ⟨e, he, ?_⟩⟩
    unfold Extent.Contains at hc
    unfold Has
    omega

theorem takeFreeExtent_isSome (h : ∃ e ∈ l, e.Contains address size) :
    takeFreeExtent l address size = some (takeFreeSpan l address (address + size)) := by
  rcases takeFreeExtent_eq hl hpos hfit with ⟨_, hall⟩ | ⟨hs, _⟩
  · obtain ⟨e, he, hc⟩ := h
    exact absurd hc (hall e he)
  · exact hs

end

section Span

variable {l : List Extent} {b e : UInt64}

theorem normal_takeFreeSpan (hl : Normal l) (hbe : b.toNat < e.toNat) :
    Normal (takeFreeSpan l b e) := hl.flatMap_cut hbe

theorem covers_takeFreeSpan (hl : Normal l) {x : Nat} : Covers (takeFreeSpan l b e) x ↔
      Covers l x ∧ ¬ (b.toNat ≤ x ∧ x < e.toNat) := hl.wf.covers_cutOut

end Span

variable {a b : Extent}

/-! ## Giving back -/

theorem proper_extent {a n : UInt64} (hpos : 0 < n.toNat)
    (hfit : a.toNat + n.toNat < 2 ^ 64) : Proper (⟨a, n⟩ : Extent) :=
  ⟨by change a.toNat < a.toNat + n.toNat; omega, hfit⟩

theorem joined_extent (ha : Proper a) (hb : Proper b) (h : Spanned.stop a = b.begin) :
    Proper (⟨a.begin, a.size + b.size⟩ : Extent) ∧ lo (⟨a.begin, a.size + b.size⟩ : Extent) = lo a ∧
    hi (⟨a.begin, a.size + b.size⟩ : Extent) = hi b ∧ hi a = lo b := by
  obtain ⟨h1, h2, h3⟩ := place_join ha.fits hb.fits h
  have hne := ha.nonempty
  have hne' := hb.nonempty
  have hf := hb.fits
  change lo (⟨a.begin, a.size + b.size⟩ : Extent) = _ at h1
  change hi (⟨a.begin, a.size + b.size⟩ : Extent) = _ at h2
  exact ⟨⟨by omega, by omega⟩, h1, h2, h3⟩

theorem has_joined (ha : Proper a) (hb : Proper b) (h : Spanned.stop a = b.begin) (x : Nat) :
    Has (⟨a.begin, a.size + b.size⟩ : Extent) x ↔ Has a x ∨ Has b x := by
  obtain ⟨_, h1, h2, h3⟩ := joined_extent ha hb h
  have hna := ha.nonempty
  have hnb := hb.nonempty
  unfold Has
  omega

theorem hi_lt_of_not_touch (ha : Proper a) (hle : hi a ≤ lo b) (h : Spanned.stop a ≠ b.begin) :
    hi a < lo b := by
  rcases Nat.lt_or_eq_of_le hle with hlt | heq
  · exact hlt
  · rw [← stop_toNat ha.fits] at heq
    exact absurd (UInt64.toNat_inj.mp heq) h

theorem joinNext_spec {freed : Extent} {after : List Extent} (hf : Proper freed)
    (ha : Normal after) (hlo : ∀ e ∈ after, hi freed ≤ lo e) :
    Normal ((joinNext freed after).1 :: (joinNext freed after).2) ∧
    lo (joinNext freed after).1 = lo freed ∧
    (∀ x, Covers ((joinNext freed after).1 :: (joinNext freed after).2) x ↔
      Has freed x ∨ Covers after x) ∧ ∀ B, Edges B (freed :: after) →
      Edges B ((joinNext freed after).1 :: (joinNext freed after).2) := by
  cases after with
  | nil =>
    exact ⟨normal_cons.mpr ⟨hf, fun _ h => absurd h (by simp [joinNext]), ha⟩, rfl,
      fun x => covers_cons, fun _ h => h⟩
  | cons next rest =>
    obtain ⟨hnext, hgap, hrest⟩ := normal_cons.mp ha
    have hnlo := hlo next (by simp)
    rw [joinNext]
    split
    next htouch =>
      obtain ⟨hp, h1, h2, _⟩ := joined_extent hf hnext htouch
      refine ⟨normal_cons.mpr ⟨hp, fun s hs => ?_, hrest⟩, h1, fun x => ?_, fun B hB => ?_⟩
      · rw [h2]
        exact hgap s hs
      · rw [covers_cons, covers_cons, has_joined hf hnext htouch, or_assoc]
      · intro e he
        rcases List.mem_cons.mp he with rfl | he
        · rw [h2]
          exact ⟨(hB freed (by simp)).1, (hB next (by simp)).2⟩
        · exact hB e (by simp [he])
    next htouch =>
      have hlt := hi_lt_of_not_touch hf hnlo htouch
      have hall : ∀ e ∈ next :: rest, hi freed < lo e := by
        intro e he
        rcases List.mem_cons.mp he with rfl | he
        · exact hlt
        · have := hgap e he
          have := hnext.nonempty
          omega
      exact ⟨normal_cons.mpr ⟨hf, hall, ha⟩, rfl, fun x => covers_cons, fun B hB => hB⟩

theorem joinPrevious_spec {before after : List Extent} {freed : Extent}
    (hb : Normal before) (ha : Normal (freed :: after)) (hhi : ∀ e ∈ before, hi e ≤ lo freed) :
    Normal (joinPrevious before freed after) ∧ (∀ x, Covers (joinPrevious before freed after) x ↔
        Covers before x ∨ Covers (freed :: after) x) ∧ ∀ B, Edges B (before ++ freed :: after) →
        Edges B (joinPrevious before freed after) := by
  obtain ⟨hf, hgap, hafter⟩ := normal_cons.mp ha
  rcases List.eq_nil_or_concat before with rfl | ⟨front, last, rfl⟩
  · exact ⟨ha, fun x => by simp [joinPrevious], fun _ h => h⟩
  · rw [List.concat_eq_append] at *
    obtain ⟨hfront, hl, hfl⟩ := normal_append.mp hb
    have hlast := hl.proper last (by simp)
    have hlasthi := hhi last (by simp)
    have hbelow : ∀ e ∈ front, hi e < lo last := fun e he => hfl e he last (by simp)
    have hfn := hf.nonempty
    have hln := hlast.nonempty
    unfold joinPrevious
    rw [List.getLast?_concat]
    dsimp only
    split
    next htouch =>
      obtain ⟨hp, h1, h2, h3⟩ := joined_extent hlast hf htouch
      rw [List.dropLast_concat]
      refine ⟨normal_append.mpr ⟨hfront, normal_cons.mpr ⟨hp, ?_, hafter⟩, ?_⟩,
        fun x => ?_, fun B hB => ?_⟩
      · intro s hs
        rw [h2]
        exact hgap s hs
      · intro a ha' b hb'
        have hal := hbelow a ha'
        rcases List.mem_cons.mp hb' with rfl | hb'
        · exact hal
        · have := hgap b hb'
          omega
      · rw [covers_append, covers_cons, covers_append, covers_cons, covers_cons,
          has_joined hlast hf htouch]
        simp [or_assoc]
      · intro e he
        rcases List.mem_append.mp he with he | he
        · exact hB e (by simp [he])
        · rcases List.mem_cons.mp he with rfl | he
          · rw [h2]
            exact ⟨(hB last (by simp)).1, (hB freed (by simp)).2⟩
          · exact hB e (by simp [he])
    next htouch =>
      have hlt := hi_lt_of_not_touch hlast hlasthi htouch
      refine ⟨normal_append.mpr ⟨hb, ha, ?_⟩, fun x => covers_append, fun _ h => h⟩
      intro a ha' b hb'
      have hal : hi a < lo freed := by
        rcases List.mem_append.mp ha' with ha' | ha'
        · have := hbelow a ha'
          omega
        · rw [List.mem_singleton.mp ha']
          exact hlt
      rcases List.mem_cons.mp hb' with rfl | hb'
      · exact hal
      · have := hgap b hb'
        omega

variable {address size : UInt64} {l : List Extent}

theorem splitAt_spec (hl : Normal l) (hpos : 0 < size.toNat)
    (hfree : ∀ x, address.toNat ≤ x → x < address.toNat + size.toNat → ¬ Covers l x) :
    (∀ e ∈ l.takeWhile (·.begin < address), hi e ≤ address.toNat) ∧
    ∀ e ∈ l.dropWhile (·.begin < address), address.toNat + size.toNat ≤ lo e := by
  have hout : ∀ e ∈ l, hi e ≤ address.toNat ∨ address.toNat + size.toNat ≤ lo e := by
    intro e he
    have hne := (hl.proper e he).nonempty
    by_contra hcon
    refine hfree (max (lo e) address.toNat) (by omega) (by omega) ⟨e, he, ?_⟩
    unfold Has
    omega
  clear hfree
  induction l with
  | nil => exact ⟨fun _ h => absurd h (by simp), fun _ h => absurd h (by simp)⟩
  | cons r _ ih =>
    obtain ⟨hr, hgap, hrest⟩ := normal_cons.mp hl
    have hor := hout r (by simp)
    have hne := hr.nonempty
    by_cases hlt : r.begin < address
    · rw [List.takeWhile_cons_of_pos (by simpa using hlt),
        List.dropWhile_cons_of_pos (by simpa using hlt)]
      obtain ⟨h1, h2⟩ := ih hrest fun e he => hout e (by simp [he])
      refine ⟨fun e he => ?_, h2⟩
      rcases List.mem_cons.mp he with rfl | he
      · rw [UInt64.lt_iff_toNat_lt] at hlt
        change lo e < _ at hlt
        omega
      · exact h1 e he
    · rw [List.takeWhile_cons_of_neg (by simpa using hlt),
        List.dropWhile_cons_of_neg (by simpa using hlt)]
      rw [UInt64.lt_iff_toNat_lt] at hlt
      change ¬ lo r < _ at hlt
      refine ⟨fun _ h => absurd h (by simp), fun e he => ?_⟩
      rcases List.mem_cons.mp he with rfl | he
      · omega
      · have := hgap e he
        omega

structure Extends (l l' : List Extent) (a n : UInt64) : Prop where
  normal : Normal l'
  covers : ∀ x, Covers l' x ↔ Covers l x ∨ (a.toNat ≤ x ∧ x < a.toNat + n.toNat)
  edges : ∀ B, Edges B l → B a.toNat → B (a.toNat + n.toNat) → Edges B l'

theorem insertFree_spec (hl : Normal l) (hpos : 0 < size.toNat)
    (hfit : address.toNat + size.toNat < 2 ^ 64)
    (hfree : ∀ x, address.toNat ≤ x → x < address.toNat + size.toNat → ¬ Covers l x) :
    Extends l (insertFree l address size) address size := by
  obtain ⟨hbefore, hafter⟩ := splitAt_spec hl hpos hfree
  have hsplit := List.takeWhile_append_dropWhile
    (p := fun e : Extent => decide (e.begin < address)) (l := l)
  have hl' := hl
  rw [← hsplit] at hl'
  obtain ⟨hnb, hna, _⟩ := normal_append.mp hl'
  obtain ⟨hn, hlof, hcov, hedge⟩ := joinNext_spec (proper_extent hpos hfit) hna hafter
  obtain ⟨hnorm, hcov', hedge'⟩ := joinPrevious_spec hnb hn fun e he => by
    rw [hlof]
    exact hbefore e he
  refine ⟨hnorm, fun x => ?_, fun B hB h1 h2 => hedge' B ?_⟩
  · have hsx : Covers l x ↔ Covers (l.takeWhile (·.begin < address)) x ∨
        Covers (l.dropWhile (·.begin < address)) x := by
      rw [← covers_append, hsplit]
    unfold insertFree
    rw [hcov', hcov]
    change _ ∨ (address.toNat ≤ x ∧ x < address.toNat + size.toNat) ∨ _ ↔ _
    tauto
  · have hBl := hB
    rw [← hsplit] at hBl
    intro e he
    rcases List.mem_append.mp he with he | he
    · exact hBl e (List.mem_append_left _ he)
    · refine hedge B ?_ e he
      intro r hr
      rcases List.mem_cons.mp hr with rfl | hr
      · exact ⟨h1, h2⟩
      · exact hBl r (List.mem_append_right _ hr)

/-! The pieces `returnFreeExtent` recurses on are the gaps of the list. -/

theorem freePieces_eq {stop cursor : UInt64} (hl : Normal l) :
    freePieces stop cursor l = (gapsFrom stop cursor l).map fun g => (g.1, g.2 - g.1) := by
  have hwin : ∀ c : UInt64, (if c < stop then [(c, stop - c)] else []) =
      (window c stop).map fun g => (g.1, g.2 - g.1) := by
    intro c
    unfold window
    split <;> rfl
  -- Past the end of the span nothing is left but the window.
  have hpast : ∀ (l : List Extent) (c : UInt64), (∀ e ∈ l, stop ≤ e.begin) →
      freePieces stop c l = (window c stop).map fun g => (g.1, g.2 - g.1) := by
    intro l
    induction l with
    | nil =>
      intro c _
      exact hwin c
    | cons r _ ih =>
      intro c h
      rw [freePieces, if_pos (.inr (h r (by simp)))]
      exact ih c fun e he => h e (by simp [he])
  induction l generalizing cursor with
  | nil => exact hwin cursor
  | cons r rest ih =>
    obtain ⟨hr, hgap, hrest⟩ := normal_cons.mp hl
    have hs := stop_toNat hr.fits
    rw [freePieces, gapsFrom]
    by_cases hskip : Spanned.stop r ≤ cursor
    · rw [if_pos (.inl hskip), if_pos hskip]
      exact ih hrest
    · rw [if_neg hskip]
      by_cases hp : stop ≤ r.begin
      · rw [if_pos (.inr hp), if_pos (show stop ≤ Spanned.begin r from hp)]
        apply hpast
        intro e he
        have := hgap e he
        have := hr.nonempty
        change _ ≤ lo r at hp
        change _ ≤ lo e
        omega
      · rw [if_neg (not_or.mpr ⟨hskip, hp⟩),
          if_neg (show ¬ stop ≤ Spanned.begin r from hp), List.map_append]
        congr 1
        · change _ = List.map _ (if cursor < r.begin then [(cursor, r.begin)] else [])
          by_cases h : cursor < r.begin <;> simp [h]
        · split
          next hdone =>
            rw [hpast rest]
            · rw [UInt64.le_iff_toNat_le] at hdone
              unfold window
              rw [if_neg (by rw [UInt64.lt_iff_toNat_lt]; omega)]
            · intro e he
              have := hgap e he
              rw [UInt64.le_iff_toNat_le, toNat_wordMax] at hdone
              rw [UInt64.le_iff_toNat_le] at hskip
              rw [UInt64.le_iff_toNat_le]
              change _ ≤ lo e
              omega
          · exact ih hrest

section

variable (hl : Normal l) (hpos : 0 < size.toNat) (hfit : address.toNat + size.toNat < 2 ^ 64)
include hl hpos hfit

theorem overlapsFree_iff : overlapsFree l address size = true ↔
    ∃ x, address.toNat ≤ x ∧ x < address.toNat + size.toNat ∧ Covers l x := by
  have hsum := toNat_add_of_lt hfit
  unfold overlapsFree
  simp only [List.any_eq_true, Bool.and_eq_true, decide_eq_true_eq, UInt64.lt_iff_toNat_lt]
  constructor
  · rintro ⟨e, he, h1, h2⟩
    have hp := hl.proper e he
    rw [stop_toNat hp.fits] at h2
    change lo e < _ at h1
    have := hp.nonempty
    refine ⟨max (lo e) address.toNat, by omega, by omega, e, he, ?_⟩
    unfold Has
    omega
  · rintro ⟨x, h1, h2, e, he, hx⟩
    unfold Has at hx
    refine ⟨e, he, ?_, ?_⟩
    · change lo e < _
      omega
    · rw [stop_toNat (hl.proper e he).fits]
      omega

theorem returnFreeExtent_of_free
    (hfree : ∀ x, address.toNat ≤ x → x < address.toNat + size.toNat → ¬ Covers l x) :
    returnFreeExtent l address size = insertFree l address size := by
  rw [returnFreeExtent, if_neg, dif_neg]
  · rw [overlapsFree_iff hl hpos hfit]
    rintro ⟨x, h1, h2, h3⟩
    exact hfree x h1 h2 h3
  · rintro rfl
    exact absurd hpos (by simp)

end

theorem foldl_return_gaps {gs : List (UInt64 × UInt64)} : ∀ {l : List Extent}, Normal l →
      (∀ g ∈ gs, g.1.toNat < g.2.toNat ∧ ∀ x, g.1.toNat ≤ x → x < g.2.toNat → ¬ Covers l x) →
      gs.Pairwise (fun g g' => g.2.toNat ≤ g'.1.toNat) →
      let l' := gs.foldl (fun acc g => returnFreeExtent acc g.1 (g.2 - g.1)) l
      Normal l' ∧ (∀ x, Covers l' x ↔ Covers l x ∨ ∃ g ∈ gs, g.1.toNat ≤ x ∧ x < g.2.toNat) ∧
        ∀ B, Edges B l → (∀ g ∈ gs, B g.1.toNat ∧ B g.2.toNat) → Edges B l' := by
  induction gs with
  | nil =>
    intro l hl _ _
    exact ⟨hl, fun x => by simp, fun B hB _ => hB⟩
  | cons g rest ih =>
    intro l hl hgs hsort
    obtain ⟨hlt, hfree⟩ := hgs g (by simp)
    have hsub := toNat_sub_of_le hlt.le
    have hend : g.1.toNat + (g.2 - g.1).toNat = g.2.toNat := by omega
    have hword := toNat_lt_word g.2
    have hfree' : ∀ x, g.1.toNat ≤ x → x < g.1.toNat + (g.2 - g.1).toNat → ¬ Covers l x := by
      rw [hend]
      exact hfree
    have hins := insertFree_spec hl (by omega) (by omega) hfree'
    rw [← returnFreeExtent_of_free hl (by omega) (by omega) hfree'] at hins
    obtain ⟨hhead, htail⟩ := List.pairwise_cons.mp hsort
    have hnext : ∀ g' ∈ rest, g'.1.toNat < g'.2.toNat ∧ ∀ x, g'.1.toNat ≤ x → x < g'.2.toNat →
          ¬ Covers (returnFreeExtent l g.1 (g.2 - g.1)) x := by
      intro g' hg'
      have := hhead g' hg'
      refine ⟨(hgs g' (by simp [hg'])).1, fun x h1 h2 => ?_⟩
      rw [hins.covers]
      rintro (h | h)
      · exact (hgs g' (by simp [hg'])).2 x h1 h2 h
      · omega
    obtain ⟨hn, hcov, hedge⟩ := ih hins.normal hnext htail
    refine ⟨hn, fun x => ?_, fun B hB hBg => hedge B ?_ fun g' hg' => hBg g' (by simp [hg'])⟩
    · change Covers (rest.foldl _ _) x ↔ _
      rw [hcov, hins.covers, hend, or_assoc]
      simp
    · have := hBg g (by simp)
      exact hins.edges B hB this.1 (by rw [hend]; exact this.2)

theorem returnFreeExtent_spec (hl : Normal l) (hfit : address.toNat + size.toNat < 2 ^ 64) :
    Extends l (returnFreeExtent l address size) address size := by
  have hsum := toNat_add_of_lt hfit
  rcases Nat.eq_zero_or_pos size.toNat with h0 | hpos
  · rw [returnFreeExtent, if_pos (UInt64.toNat_inj.mp h0)]
    refine ⟨hl, fun x => ?_, fun _ hB _ _ => hB⟩
    constructor
    · exact .inl
    · rintro (h | h)
      · exact h
      · omega
  · by_cases hov : overlapsFree l address size = true
    · have hne : size ≠ 0 := ne_zero_of_toNat_pos hpos
      have hfold : returnFreeExtent l address size = (gapsFrom (address + size) address l).foldl
            (fun acc g => returnFreeExtent acc g.1 (g.2 - g.1)) l := by
        rw [returnFreeExtent, if_neg hne, dif_pos hov]
        have hatt := List.foldl_attach (l := freePieces (address + size) address l)
          (f := fun acc p => returnFreeExtent acc p.1 p.2) (b := l)
        rw [hatt, freePieces_eq hl, List.foldl_map]
      have hg := hl.wf.gaps address (address + size)
      obtain ⟨hn, hcov, hedge⟩ := foldl_return_gaps hl
        (fun g hgs => ⟨(hg.isGap g hgs).pos, (hg.isGap g hgs).free⟩) hg.sorted
      rw [← hfold] at hn hcov hedge
      refine ⟨hn, fun x => ?_, fun B hB h1 h2 => hedge B hB fun g hgs => ?_⟩
      · rw [hcov]
        constructor
        · rintro (h | ⟨g, hgs, h⟩)
          · exact .inl h
          · have h1 := (hg.isGap g hgs).low
            have h2 := (hg.isGap g hgs).high
            exact .inr (by omega)
        · rintro (h | h)
          · exact .inl h
          · by_cases hc : Covers l x
            · exact .inl hc
            · exact .inr (hg.all x h.1 (by omega) hc)
      · have hgap := hg.isGap g hgs
        constructor
        · rcases hgap.left with h | ⟨r, hr, h⟩
          · rw [h]
            exact h1
          · rw [← h]
            exact (hB r hr).2
        · rcases hgap.right with h | ⟨r, hr, h⟩
          · rw [h, hsum]
            exact h2
          · rw [← h]
            exact (hB r hr).1
    · have hfree : ∀ x, address.toNat ≤ x → x < address.toNat + size.toNat → ¬ Covers l x := by
        intro x h1 h2 h3
        exact hov ((overlapsFree_iff hl hpos hfit).mpr ⟨x, h1, h2, h3⟩)
      rw [returnFreeExtent_of_free hl hpos hfit hfree]
      exact insertFree_spec hl hpos hfit hfree

/-- The list is again the normal form of its set: of the union for any range, of the difference
for one that is not empty. -/
theorem free_list_normal (hl : Normal l) (hfit : address.toNat + size.toNat < 2 ^ 64) :
    let Within x := address.toNat ≤ x ∧ x < address.toNat + size.toNat
    let span := takeFreeSpan l address (address + size)
    (Normal (returnFreeExtent l address size) ∧
      ∀ x, Covers (returnFreeExtent l address size) x ↔ Covers l x ∨ Within x) ∧
    (0 < size.toNat → (Normal span ∧ ∀ x, Covers span x ↔ Covers l x ∧ ¬ Within x) ∧
      ((∀ x, Within x → Covers l x) → takeFreeExtent l address size = some span) ∧
      (¬ (∀ x, Within x → Covers l x) → takeFreeExtent l address size = none)) := by
  intro Within span
  have hback := returnFreeExtent_spec hl hfit
  have hsum := toNat_add_of_lt hfit
  refine ⟨⟨hback.normal, hback.covers⟩, fun hpos =>
    ⟨⟨?_, fun x => ?_⟩, fun hall => ?_, fun hno => ?_⟩⟩
  · exact normal_takeFreeSpan hl (by omega)
  · exact (covers_takeFreeSpan hl).trans (by rw [hsum])
  · obtain ⟨e, he, hlo, hhi⟩ := hl.mem_of_covers (a := address.toNat)
      (b := address.toNat + size.toNat) (by omega) fun x h₁ h₂ => hall x ⟨h₁, h₂⟩
    exact takeFreeExtent_isSome hl hpos hfit ⟨e, he, hlo, hhi⟩
  · cases h : takeFreeExtent l address size with
    | none => rfl
    | some l' => exact absurd (fun x hx => (takeFreeExtent_some hl hpos hfit h).2 x hx.1 hx.2) hno

theorem free_list_normal_page : Normal (returnFreeExtent [⟨0x1000, 0x2000⟩] 0x2000 0x2000) :=
  (free_list_normal (normal_cons.mpr ⟨⟨by decide, by decide⟩, by simp, normal_nil⟩) (by decide)).1.1

/-- An empty range inside an extent splits it into two that touch. -/
theorem take_empty_splits : Normal [(⟨0x1000, 0x2000⟩ : Extent)] ∧
      ¬ Normal (takeFreeSpan [⟨0x1000, 0x2000⟩] 0x2000 0x2000) := by
  refine ⟨normal_cons.mpr ⟨⟨by decide, by decide⟩, by simp, normal_nil⟩, fun h => ?_⟩
  exact absurd h.separate (by decide)

/-! ## The committed list: bisection -/

section Bisect

variable {l : List GuestRange} {a : UInt64}

theorem hi_le_of_getElem (hl : Wf l) {i j : Nat} (hj : j < l.length) (hij : i < j) :
    hi l[i] ≤ hi l[j] := by
  have hp := List.pairwise_iff_getElem.mp hl.apart i j (by omega) hj hij
  have hn := (hl.proper l[j] (List.getElem_mem hj)).nonempty
  omega

theorem bisectEndingAfter_spec (hl : Wf l) : ∀ fuel low high : Nat,
    high ≤ l.length → high - low ≤ fuel → (∀ j (hj : j < l.length), j < low → hi l[j] ≤ a.toNat) →
    (∀ j (hj : j < l.length), high ≤ j → a.toNat < hi l[j]) →
    (∀ j (hj : j < l.length), j < bisectEndingAfter l a fuel low high → hi l[j] ≤ a.toNat) ∧
    ∀ j (hj : j < l.length), bisectEndingAfter l a fuel low high ≤ j → a.toNat < hi l[j] := by
  intro fuel
  induction fuel with
  | zero =>
    intro low high _ hf hlow hhigh
    exact ⟨hlow, fun j hj h => hhigh j hj (by rw [bisectEndingAfter] at h; omega)⟩
  | succ _ ih =>
    intro low high hlen hf hlow hhigh
    rw [bisectEndingAfter]
    split
    next hlt =>
      have hmid : low + (high - low) / 2 < l.length := by omega
      have hfit := (hl.proper _ (List.getElem_mem hmid)).fits
      dsimp only
      rw [List.getD_eq_getElem?_getD, List.getElem?_eq_getElem hmid, Option.getD_some]
      split <;> rename_i hle <;>
        rw [UInt64.le_iff_toNat_le, stop_toNat hfit] at hle
      · refine ih _ _ hlen (by omega) (fun j hj h => ?_) hhigh
        rcases Nat.lt_or_eq_of_le (Nat.le_of_lt_succ h) with h | h
        · exact Nat.le_trans (hi_le_of_getElem hl hmid h) hle
        · subst h
          exact hle
      · refine ih _ _ (by omega) (by omega) hlow (fun j hj h => ?_)
        rcases Nat.lt_or_eq_of_le h with h | h
        · have := hi_le_of_getElem hl hj h
          omega
        · subst h
          omega
    next hlt => exact ⟨hlow, fun j hj h => hhigh j hj (by omega)⟩

theorem firstRangeEndingAfter_spec (hl : Wf l) (a : UInt64) :
    (∀ r ∈ l.take (firstRangeEndingAfter l a), hi r ≤ a.toNat) ∧
    ∀ r ∈ l.drop (firstRangeEndingAfter l a), a.toNat < hi r := by
  obtain ⟨h1, h2⟩ := bisectEndingAfter_spec hl l.length 0 l.length
    le_rfl (by omega) (fun j _ h => absurd h (by omega)) (fun j hj h => absurd hj (by omega))
  constructor
  · intro r hr
    obtain ⟨i, hi', rfl⟩ := List.mem_take_iff_getElem.mp hr
    exact h1 i (by omega) (by unfold firstRangeEndingAfter at hi'; omega)
  · intro r hr
    obtain ⟨i, -, rfl⟩ := List.mem_drop_iff_getElem.mp hr
    exact h2 (firstRangeEndingAfter l a + i) (by omega) (by unfold firstRangeEndingAfter; omega)

theorem getElem?_firstRangeEndingAfter (hl : Wf l) (a : UInt64) {r : GuestRange} :
    (l[firstRangeEndingAfter l a]? = some r ∧ r.begin ≤ a) ↔ r ∈ l ∧ Has r a.toNat := by
  obtain ⟨hbefore, hafter⟩ := firstRangeEndingAfter_spec hl a
  have hsplit := List.take_append_drop (firstRangeEndingAfter l a) l
  have hhead : l[firstRangeEndingAfter l a]? = (l.drop (firstRangeEndingAfter l a)).head? := by
    rw [List.head?_drop]
  rw [hhead]
  constructor
  · rintro ⟨hr, hle⟩
    have hmem := List.mem_of_mem_head? hr
    exact ⟨List.mem_of_mem_drop hmem, hle, hafter r hmem⟩
  · rintro ⟨hr, hlo, hhi⟩
    rw [← hsplit, List.mem_append] at hr
    have hdrop : r ∈ l.drop (firstRangeEndingAfter l a) := by
      refine hr.resolve_left fun htake => ?_
      have := hbefore r htake
      omega
    have hwf : Wf (l.drop (firstRangeEndingAfter l a)) := by
      rw [← hsplit, wf_append] at hl
      exact hl.2.1
    -- Whatever comes first ends after the address, and the range starts before.
    cases hl' : l.drop (firstRangeEndingAfter l a) with
    | nil =>
      rw [hl'] at hdrop
      cases hdrop
    | cons q _ =>
      rw [hl'] at hdrop hwf hafter
      obtain ⟨_, hapart, _⟩ := wf_cons.mp hwf
      rcases List.mem_cons.mp hdrop with rfl | hrest
      · exact ⟨rfl, hlo⟩
      · have := hapart r hrest
        have := hafter q List.mem_cons_self
        omega

theorem gapsFrom_append_of_le {e c : UInt64} {l₁ l₂ : List GuestRange}
    (hl : Wf l₁) (h : ∀ r ∈ l₁, hi r ≤ c.toNat) : gapsFrom e c (l₁ ++ l₂) = gapsFrom e c l₂ := by
  induction l₁ with
  | nil => rfl
  | cons r _ ih =>
    obtain ⟨hr, _, hrest⟩ := wf_cons.mp hl
    rw [List.cons_append, gapsFrom, if_pos]
    · exact ih hrest fun s hs => h s (by simp [hs])
    · rw [UInt64.le_iff_toNat_le, stop_toNat hr.fits]
      exact h r (by simp)

theorem uncommittedFrom_eq {e c : UInt64} (hl : Wf l) (h : ∀ r ∈ l, c.toNat < hi r) :
    uncommittedFrom e c l = gapsFrom e c l := by
  induction l generalizing c with
  | nil => rfl
  | cons r rest ih =>
    obtain ⟨hr, hlo, hrest⟩ := wf_cons.mp hl
    have hs := stop_toNat hr.fits
    have hc := h r (by simp)
    rw [uncommittedFrom, gapsFrom, if_neg (show ¬ Spanned.stop r ≤ c by
      rw [UInt64.le_iff_toNat_le]; omega)]
    by_cases hp : e ≤ r.begin
    · rw [if_pos hp, if_pos (show e ≤ Spanned.begin r from hp)]
      rfl
    · have hmin : wordMin r.begin e = r.begin := by
        unfold wordMin
        rw [UInt64.le_iff_toNat_le] at hp
        rw [if_neg (by rw [UInt64.lt_iff_toNat_lt]; omega)]
      have hrec : ¬ e ≤ wordMax c (Spanned.stop r) →
          uncommittedFrom e (wordMax c (Spanned.stop r)) rest =
            gapsFrom e (wordMax c (Spanned.stop r)) rest := by
        intro _
        refine ih hrest fun s hs' => ?_
        have h1 := hlo s hs'
        have h2 := (hrest.proper s hs').nonempty
        rw [toNat_wordMax]
        omega
      rw [hmin]
      by_cases hd : e ≤ wordMax c (Spanned.stop r)
      · rw [if_pos hd, if_pos hd, List.append_nil]
        rfl
      · rw [if_neg hd, if_neg hd, hrec hd]
        rfl

theorem uncommittedIn_eq (hl : Wf l) (b e : UInt64) : uncommittedIn l b e = gapsFrom e b l := by
  obtain ⟨hbefore, hafter⟩ := firstRangeEndingAfter_spec hl b
  have hsplit := List.take_append_drop (firstRangeEndingAfter l b) l
  have hl' := hl
  rw [← hsplit] at hl'
  obtain ⟨ht, hd, _⟩ := wf_append.mp hl'
  unfold uncommittedIn
  rw [uncommittedFrom_eq hd hafter]
  conv_rhs => rw [← hsplit]
  exact (gapsFrom_append_of_le ht hbefore).symm

theorem gaps_uncommittedIn (hl : Wf l) (b e : UInt64) : Gaps l b e (uncommittedIn l b e) := by
  rw [uncommittedIn_eq hl]
  exact hl.gaps b e

variable {g : UInt64 × UInt64} {b e : UInt64}

theorem mem_committedFrom (hl : Wf l) : g ∈ committedFrom b e l ↔ ∃ r ∈ l, lo r < e.toNat ∧
      g = (wordMax r.begin b, wordMin (Spanned.stop r) e) := by
  induction l with
  | nil => simp [committedFrom]
  | cons r _ ih =>
    obtain ⟨hr, hlo, hrest⟩ := wf_cons.mp hl
    have hne := hr.nonempty
    rw [committedFrom]
    split
    next hge =>
      change e.toNat ≤ lo r at hge
      simp only [List.not_mem_nil, List.mem_cons, false_iff, not_exists, not_and]
      rintro q (rfl | hq) hlt
      · omega
      · have := hlo q hq
        omega
    next hlt =>
      change ¬ e.toNat ≤ lo r at hlt
      rw [List.mem_cons, ih hrest]
      constructor
      · rintro (rfl | ⟨q, hq, h⟩)
        · exact ⟨r, by simp, by omega, rfl⟩
        · exact ⟨q, by simp [hq], h⟩
      · rintro ⟨q, hq, h1, h2⟩
        rcases List.mem_cons.mp hq with rfl | hq
        · exact .inl h2
        · exact .inr ⟨q, hq, h1, h2⟩

theorem committedFrom_sorted (hl : Wf l) (b e : UInt64) :
    (committedFrom b e l).Pairwise fun g g' => g.2.toNat ≤ g'.1.toNat := by
  induction l with
  | nil => exact .nil
  | cons r rest ih =>
    obtain ⟨hr, hlo, hrest⟩ := wf_cons.mp hl
    rw [committedFrom]
    split
    · exact .nil
    · refine .cons (fun g hg => ?_) (ih hrest)
      obtain ⟨q, hq, -, rfl⟩ := (mem_committedFrom hrest).mp hg
      have hle : hi r ≤ q.begin.toNat := hlo q hq
      rw [toNat_wordMin, toNat_wordMax, stop_toNat hr.fits]
      omega

theorem mem_committedIn (hl : Wf l) : g ∈ committedIn l b e ↔ ∃ r ∈ l,
    (b.toNat < hi r ∧ lo r < e.toNat) ∧ g = (wordMax r.begin b, wordMin (Spanned.stop r) e) := by
  obtain ⟨hbefore, hafter⟩ := firstRangeEndingAfter_spec hl b
  have hsplit := List.take_append_drop (firstRangeEndingAfter l b) l
  have hl' := hl
  rw [← hsplit] at hl'
  obtain ⟨_, hd, _⟩ := wf_append.mp hl'
  unfold committedIn
  rw [mem_committedFrom hd]
  constructor
  · rintro ⟨r, hr, h1, h2⟩
    exact ⟨r, List.mem_of_mem_drop hr, ⟨hafter r hr, h1⟩, h2⟩
  · rintro ⟨r, hr, ⟨h1, h2⟩, h3⟩
    rw [← hsplit, List.mem_append] at hr
    rcases hr with hr | hr
    · have := hbefore r hr
      omega
    · exact ⟨r, hr, h2, h3⟩

theorem committedIn_inside (hl : Wf l) (hbe : b.toNat < e.toNat) (hg : g ∈ committedIn l b e) :
    b.toNat ≤ g.1.toNat ∧ g.2.toNat ≤ e.toNat ∧ g.1.toNat < g.2.toNat := by
  obtain ⟨r, hr, hmeets, rfl⟩ := (mem_committedIn hl).mp hg
  have hproper := hl.proper r hr
  have hne := hproper.nonempty
  rw [toNat_wordMax, toNat_wordMin, stop_toNat hproper.fits]
  change _ ≤ max (lo r) _ ∧ _ ∧ max (lo r) _ < _
  omega

theorem covers_committedIn (hl : Wf l) {x : Nat} (hb : b.toNat ≤ x) (he : x < e.toNat)
    (hx : Covers l x) : ∃ g ∈ committedIn l b e, g.1.toNat ≤ x ∧ x < g.2.toNat := by
  obtain ⟨r, hr, hhas⟩ := hx
  have hhas' : lo r ≤ x ∧ x < hi r := hhas
  refine ⟨_, (mem_committedIn hl).mpr ⟨r, hr, ⟨by omega, by omega⟩, rfl⟩, ?_⟩
  rw [toNat_wordMax, toNat_wordMin, stop_toNat (hl.proper r hr).fits]
  change max (lo r) _ ≤ x ∧ _
  omega

end Bisect

/-! ## Recording -/

namespace GuestAddressSpace

variable (s : GuestAddressSpace) (address size : UInt64) (protection : Prot)

def newRange : GuestRange :=
  ⟨address, size, protection, s.nextEpoch, protection.has kGuestProtWrite⟩

@[simp] theorem markCommitted_fields :
    (s.markCommitted address size).toGeometry = s.toGeometry ∧ (s.markCommitted address size).free =
      s.free ∧ (s.markCommitted address size).committed = s.committed ∧
      (s.markCommitted address size).nextEpoch = s.nextEpoch := by
  unfold markCommitted
  split <;> exact ⟨rfl, rfl, rfl, rfl⟩

theorem recordCommitted_committed : (s.recordCommitted address size protection).committed =
      overwrite s.committed (s.newRange address size protection) := by
  obtain ⟨_, _, hc, he⟩ := s.markCommitted_fields address size
  unfold recordCommitted
  dsimp only
  rw [hc, he]
  rfl

@[simp] theorem recordCommitted_free :
    (s.recordCommitted address size protection).free = s.free :=
  (s.markCommitted_fields address size).2.1

@[simp] theorem recordCommitted_geometry :
    (s.recordCommitted address size protection).toGeometry = s.toGeometry :=
  (s.markCommitted_fields address size).1

@[simp] theorem notify_fields :
    (s.notify address size).toGeometry = s.toGeometry ∧ (s.notify address size).free = s.free ∧
      (s.notify address size).committed = s.committed ∧
      (s.notify address size).nextEpoch = s.nextEpoch := by
  unfold notify
  split <;> exact ⟨rfl, rfl, rfl, rfl⟩

end GuestAddressSpace

/-! ## Protecting -/

section Protecting

open GuestAddressSpace

variable {l : List GuestRange} {b e sb se : UInt64} {p : Prot}

theorem lo_protectedPart (b e sb se : UInt64) (p : Prot) (r : GuestRange) :
    lo (protectedPart b e sb se p r) = max (lo r) b.toNat :=
  toNat_wordMax _ _

theorem hi_protectedPart {r : GuestRange} (hr : hi r < 2 ^ 64) (hm : Meets b e r)
    (hbe : b.toNat ≤ e.toNat) : hi (protectedPart b e sb se p r) = min (hi r) e.toNat := by
  have hle : lo r ≤ hi r := Nat.le_add_right _ _
  have hmax := toNat_wordMax r.begin b
  have hmin := toNat_wordMin (Spanned.stop r) e
  rw [stop_toNat hr] at hmin
  change _ = max (lo r) _ at hmax
  unfold Meets at hm
  change (wordMax r.begin b).toNat + (wordMin (Spanned.stop r) e - wordMax r.begin b).toNat = _
  rw [toNat_sub_of_le (by omega)]
  omega

theorem fills_protectedPart {r : GuestRange} (hr : Proper r) (hbe : b.toNat < e.toNat)
    (hm : Meets b e r) : Fills b e (fun r => [protectedPart b e sb se p r]) r := by
  have hlo := lo_protectedPart b e sb se p r
  have hhi : hi (protectedPart b e sb se p r) = min (hi r) e.toNat :=
    hi_protectedPart hr.fits hm hbe.le
  have hne := hr.nonempty
  have hfit := hr.fits
  unfold Meets at hm
  refine ⟨wf_cons.mpr ⟨⟨by omega, by omega⟩, by simp, wf_nil⟩, fun s hs => ?_⟩
  rw [List.mem_singleton.mp hs]
  omega

def reprotect (l : List GuestRange) (b e sb se : UInt64) (p : Prot) : List GuestRange :=
  coalesce (sortByBegin (l.flatMap (cut b e fun r => [protectedPart b e sb se p r])))

section

variable (hl : Wf l) (hbe : b.toNat < e.toNat)
include hl hbe

theorem wf_reprotect_cut : Wf (l.flatMap (cut b e fun r => [protectedPart b e sb se p r])) :=
  hl.flatMap_cut hbe.le fun r hr hm => fills_protectedPart (hl.proper r hr) hbe hm

theorem wf_reprotect : Wf (reprotect l b e sb se p) :=
  (wf_reprotect_cut hl hbe).sortByBegin.join

theorem edges_reprotect {B : Nat → Prop}
    (hB : Edges B l) (hb : B b.toNat) (he : B e.toNat) : Edges B (reprotect l b e sb se p) := by
  refine (wf_reprotect_cut hl hbe).sortByBegin.edges_join (edges_sortByBegin ?_)
  refine hl.edges_flatMap_cut hB (fun _ _ _ _ => hb) (fun _ _ _ _ => he) ?_
  intro r hr hm s hs
  rw [List.mem_singleton.mp hs, lo_protectedPart, hi_protectedPart (hl.fits r hr) hm hbe.le]
  obtain ⟨h1, h2⟩ := hB r hr
  constructor
  · rcases Nat.le_total (lo r) b.toNat with h | h
    · rwa [Nat.max_eq_right h]
    · rwa [Nat.max_eq_left h]
  · rcases Nat.le_total (hi r) e.toNat with h | h
    · rwa [Nat.min_eq_left h]
    · rwa [Nat.min_eq_right h]

end

section

variable (hl : Fits l) (hbe : b.toNat ≤ e.toNat)
include hl hbe

theorem fits_reprotect_cut : Fits (l.flatMap (cut b e fun r => [protectedPart b e sb se p r])) := by
  refine hl.flatMap_cut fun r hr hm s hs => ?_
  rw [List.mem_singleton.mp hs, hi_protectedPart (hl r hr) hm hbe]
  exact Nat.lt_of_le_of_lt (Nat.min_le_left _ _) (hl r hr)

theorem fits_reprotect : Fits (reprotect l b e sb se p) :=
  (fits_reprotect_cut hl hbe).sortByBegin.join

theorem holds_reprotect {x : Nat} {t : Attr} :
    Holds (reprotect l b e sb se p) x t ↔ (Holds l x t ∧ ¬ (b.toNat ≤ x ∧ x < e.toNat)) ∨
        ∃ r ∈ l, Has r x ∧ (b.toNat ≤ x ∧ x < e.toNat) ∧ tag (protectedPart b e sb se p r) = t := by
  unfold reprotect coalesce
  rw [(fits_reprotect_cut hl hbe).sortByBegin.holds_join, holds_sortByBegin, hl.holds_flatMap_cut]
  refine or_congr Iff.rfl (exists_congr fun r => and_congr_right fun hr => ?_)
  have hp := hl r hr
  rw [holds_cons]
  constructor
  · rintro ⟨hm, ⟨hx, ht⟩ | h⟩
    · unfold Has at hx ⊢
      rw [lo_protectedPart, hi_protectedPart hp hm hbe] at hx
      exact ⟨by omega, by omega, ht⟩
    · exact absurd h (not_holds_nil x t)
  · rintro ⟨hx, hin, ht⟩
    unfold Has at hx
    have hm : Meets b e r := by unfold Meets; omega
    refine ⟨hm, .inl ⟨?_, ht⟩⟩
    unfold Has
    rw [lo_protectedPart, hi_protectedPart hp hm hbe]
    omega

end

theorem holds_reprotect_empty (hl : Fits l) {x : Nat} {t : Attr} :
    Holds (reprotect l b b sb se p) x t ↔ Holds l x t := by
  rw [holds_reprotect hl le_rfl]
  constructor
  · rintro (⟨h, _⟩ | ⟨_, _, _, hin, _⟩)
    · exact h
    · omega
  · exact fun h => .inl ⟨h, by omega⟩

end Protecting

/-! ## Asking -/

namespace GuestAddressSpace

variable {s : GuestAddressSpace} {required : Prot} {stop : UInt64} {l : List GuestRange}

theorem validateFrom_spec : ∀ {cursor : UInt64}, validateFrom required stop cursor l = true →
      (∀ r ∈ l, Proper r) → ∀ x, cursor.toNat ≤ x → x < stop.toNat →
        ∃ r ∈ l, Has r x ∧ r.protection &&& required = required := by
  induction l with
  | nil =>
    intro cursor hv
    cases hv
  | cons r _ ih =>
    intro cursor hv hl x hx hx'
    have hstop : (Spanned.stop r).toNat = hi r := stop_toNat (hl r List.mem_cons_self).fits
    rw [validateFrom] at hv
    split at hv
    · cases hv
    next hbegin =>
      split at hv
      · cases hv
      next hprot =>
        rw [not_not] at hprot
        have hlo : lo r ≤ cursor.toNat := by
          rw [gt_iff_lt, UInt64.lt_iff_toNat_lt, Nat.not_lt] at hbegin
          exact hbegin
        by_cases hin : x < hi r
        · exact ⟨r, List.mem_cons_self, ⟨by omega, hin⟩, hprot⟩
        · split at hv
          next hge =>
            rw [ge_iff_le, UInt64.le_iff_toNat_le] at hge
            omega
          · obtain ⟨q, hq, hrest⟩ := ih hv
              (fun q hq => hl q (List.mem_cons_of_mem _ hq)) x (by omega) hx'
            exact ⟨q, List.mem_cons_of_mem _ hq, hrest⟩

theorem validateFrom_iff (hl : Wf l) : ∀ {cursor : UInt64},
    (∀ r ∈ l, cursor.toNat < hi r) → cursor.toNat < stop.toNat →
    (validateFrom required stop cursor l = true ↔ ∀ x, cursor.toNat ≤ x → x < stop.toNat →
        ∃ r ∈ l, Has r x ∧ r.protection &&& required = required) := by
  intro cursor hafter hlt
  refine ⟨fun hv => validateFrom_spec hv hl.proper, ?_⟩
  induction l generalizing cursor with
  | nil =>
    intro hall
    obtain ⟨r, hr, _⟩ := hall cursor.toNat le_rfl hlt
    cases hr
  | cons r _ ih =>
    intro hall
    obtain ⟨hr, hapart, hrest⟩ := wf_cons.mp hl
    have hstop : (Spanned.stop r).toNat = hi r := stop_toNat hr.fits
    have hcursor := hafter r List.mem_cons_self
    -- The cursor's own byte is in the first range, or it starts a hole.
    obtain ⟨q, hq, hhas, hprot⟩ := hall cursor.toNat le_rfl hlt
    have hqr : q = r := by
      refine (List.mem_cons.mp hq).resolve_right fun hin => ?_
      have := hapart q hin
      have := hhas.1
      omega
    subst hqr
    rw [validateFrom, if_neg, if_neg (not_not.mpr hprot)]
    · split
      · rfl
      next hmore =>
        rw [ge_iff_le, UInt64.le_iff_toNat_le] at hmore
        refine ih hrest (fun s hs => ?_) (by omega) fun x h1 h2 => ?_
        · have := hapart s hs
          have := (hrest.proper s hs).nonempty
          omega
        · obtain ⟨s, hs, hx, hp⟩ := hall x (by omega) h2
          refine ⟨s, (List.mem_cons.mp hs).resolve_left ?_, hx, hp⟩
          rintro rfl
          have := hx.2
          omega
    · exact Nat.not_lt.mpr hhas.1

theorem passesEnd_iff (a n : UInt64) :
    a > 0xFFFFFFFFFFFFFFFF - n ↔ ¬ a.toNat + n.toNat < 2 ^ 64 := by
  have := toNat_lt_word n
  rw [gt_iff_lt, UInt64.lt_iff_toNat_lt, toNat_sub_of_le (by
    change n.toNat ≤ 18446744073709551615
    omega)]
  change 18446744073709551615 - n.toNat < _ ↔ _
  omega

theorem validate_fits {a n : UInt64} (h : s.validate a n required = true) (hn : n ≠ 0) :
    a.toNat + n.toNat < 2 ^ 64 := by
  simp only [validate, if_neg hn] at h
  split at h
  · cases h
  next hbig => exact not_not.mp (mt (passesEnd_iff a n).mpr hbig)

theorem validate_iff (hs : Wf s.committed) (a n : UInt64) (required : Prot) :
    s.validate a n required = true ↔ n = 0 ∨ (a.toNat + n.toNat < 2 ^ 64 ∧
      ∀ x, a.toNat ≤ x → x < a.toNat + n.toNat →
        ∃ r ∈ s.committed, Has r x ∧ r.protection &&& required = required) := by
  obtain ⟨hbefore, hafter⟩ := firstRangeEndingAfter_spec hs a
  have hsplit := List.take_append_drop (firstRangeEndingAfter s.committed a) s.committed
  have hdrop : Wf (s.committed.drop (firstRangeEndingAfter s.committed a)) := by
    rw [← hsplit, wf_append] at hs
    exact hs.2.1
  unfold validate
  by_cases h0 : n = 0
  · simp [h0]
  · have hpos : 0 < n.toNat := toNat_pos h0
    have hfit := passesEnd_iff a n
    rw [if_neg h0]
    by_cases hbig : a > 0xFFFFFFFFFFFFFFFF - n
    · rw [if_pos hbig]
      refine ⟨fun h => (nomatch h), ?_⟩
      rintro (h | ⟨hsum, _⟩)
      · exact absurd h h0
      · exact absurd hsum (hfit.mp hbig)
    · have hsum := not_not.mp (mt hfit.mpr hbig)
      have hstop := toNat_add_of_lt hsum
      rw [if_neg hbig, validateFrom_iff hdrop hafter (by omega), hstop]
      constructor
      · intro hall
        refine .inr ⟨hsum, fun x h1 h2 => ?_⟩
        obtain ⟨r, hr, hx⟩ := hall x h1 h2
        exact ⟨r, List.mem_of_mem_drop hr, hx⟩
      · rintro (h | ⟨_, hall⟩) x h1 h2
        · exact absurd h h0
        · obtain ⟨r, hr, hx, hp⟩ := hall x h1 h2
          rw [← hsplit, List.mem_append] at hr
          refine ⟨r, hr.resolve_left fun htake => ?_, hx, hp⟩
          have := hbefore r htake
          have := hx.2
          omega

theorem rangeFor_eq_some (hs : Wf s.committed) (a : UInt64) {r : GuestRange} :
    s.rangeFor a = some r ↔ r ∈ s.committed ∧ Has r a.toNat := by
  have htest : ∀ q ∈ s.committed, (decide (a ≥ q.begin) &&
      decide (a < Spanned.stop q)) = true ↔ Has q a.toNat := by
    intro q hq
    rw [Bool.and_eq_true, decide_eq_true_iff, decide_eq_true_iff, UInt64.lt_iff_toNat_lt,
      stop_toNat (hs.proper q hq).fits]
    exact Iff.rfl
  unfold rangeFor
  constructor
  · intro h
    have hr := List.mem_of_find?_eq_some h
    have htrue := List.find?_some h
    exact ⟨hr, (htest r hr).mp htrue⟩
  · rintro ⟨hr, hhas⟩
    cases hfind : s.committed.find? _ with
    | none =>
      have := List.find?_eq_none.mp hfind r hr
      exact absurd ((htest r hr).mpr hhas) this
    | some q =>
      have hq := List.mem_of_find?_eq_some hfind
      have htrue := List.find?_some hfind
      rw [hs.eq_of_has hq hr ((htest q hq).mp htrue) hhas]

theorem rangeFor_eq_bisect (hs : Wf s.committed) (a : UInt64) :
    s.rangeFor a = s.committed[firstRangeEndingAfter s.committed a]?.filter (·.begin ≤ a) := by
  ext r
  rw [rangeFor_eq_some hs, ← getElem?_firstRangeEndingAfter hs, Option.filter_eq_some_iff,
    decide_eq_true_iff]

theorem rangeForNoWait_known (s : GuestAddressSpace) (a : UInt64) :
    (s.rangeForNoWait true a).known = true := by
  unfold rangeForNoWait
  simp only [Bool.not_true, Bool.false_eq_true, if_false]
  cases s.committed[firstRangeEndingAfter s.committed a]? with
  | none => rfl
  | some r => dsimp only; split <;> rfl

theorem rangeForNoWait_found (hs : Wf s.committed) (a : UInt64) :
    (s.rangeForNoWait true a).found = (s.rangeFor a).isSome := by
  rw [rangeFor_eq_bisect hs]
  unfold rangeForNoWait
  simp only [Bool.not_true, Bool.false_eq_true, if_false]
  cases s.committed[firstRangeEndingAfter s.committed a]? with
  | none => rfl
  | some r =>
    dsimp only
    split <;> rename_i h
    · rw [Option.filter_some_neg (by simpa using h)]
      rfl
    · rw [Option.filter_some_pos (by simpa using h)]
      rfl

theorem rangeForNoWait_out (hs : Wf s.committed) {a : UInt64} {r : GuestRange}
    (hr : s.rangeFor a = some r) : (s.rangeForNoWait true a).out = some r := by
  rw [rangeFor_eq_bisect hs, Option.filter_eq_some_iff] at hr
  obtain ⟨hget, hle⟩ := hr
  unfold rangeForNoWait
  simp only [Bool.not_true, Bool.false_eq_true, if_false, hget]
  rw [if_neg (by simpa using hle)]

theorem epochAt_eq (hs : Wf s.committed) (a : UInt64) :
    s.epochAt a = ((s.rangeFor a).map (·.epoch)).getD 0 := by
  rw [rangeFor_eq_bisect hs]
  unfold epochAt
  cases s.committed[firstRangeEndingAfter s.committed a]? with
  | none => rfl
  | some r =>
    dsimp only
    split <;> rename_i h
    · rw [Option.filter_some_pos (by simpa using h)]
      rfl
    · rw [Option.filter_some_neg (by simpa using h)]
      rfl

end GuestAddressSpace

end Fathom
