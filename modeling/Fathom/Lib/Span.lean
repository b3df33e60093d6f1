import Fathom.Lib.Word
import Mathlib.Data.List.Sort

/-!
# Sorted lists of word intervals

A table of half-open intervals `[begin, begin + size)` of machine words, each with a
payload, kept sorted and disjoint: the shape of every memory map.
-/

namespace Fathom.Lib

/-- A record that occupies `[begin, begin + size)` and carries a tag. -/
class Spanned (ρ : Type) (τ : outParam Type) where
  begin : ρ → UInt64
  size : ρ → UInt64
  tag : ρ → τ
  place : ρ → UInt64 → UInt64 → ρ
  begin_place : ∀ r b n, begin (place r b n) = b
  size_place : ∀ r b n, size (place r b n) = n
  tag_place : ∀ r b n, tag (place r b n) = tag r

attribute [simp] Spanned.begin_place Spanned.size_place Spanned.tag_place

namespace Spanned

variable {ρ τ : Type} [Spanned ρ τ]

def stop (r : ρ) : UInt64 := begin r + size r

def lo (r : ρ) : Nat := (begin r).toNat

def hi (r : ρ) : Nat := (begin r).toNat + (size r).toNat

structure Proper (r : ρ) : Prop where
  nonempty : lo r < hi r
  fits : hi r < 2 ^ 64

def Has (r : ρ) (x : Nat) : Prop := lo r ≤ x ∧ x < hi r

theorem stop_toNat {r : ρ} (h : hi r < 2 ^ 64) : (stop r).toNat = hi r := toNat_add_of_lt h

@[simp] theorem lo_place (r : ρ) (b n : UInt64) : lo (place r b n) = b.toNat := by
  unfold lo
  rw [begin_place]

@[simp] theorem hi_place (r : ρ) (b n : UInt64) :
    hi (place r b n) = b.toNat + n.toNat := by
  unfold hi
  rw [begin_place, size_place]

/-! ## Lists -/

def Holds (l : List ρ) (x : Nat) (t : τ) : Prop := ∃ r ∈ l, Has r x ∧ tag r = t

def Covers (l : List ρ) (x : Nat) : Prop := ∃ r ∈ l, Has r x

instance (l : List ρ) (x : Nat) : Decidable (Covers l x) :=
  inferInstanceAs (Decidable (∃ r ∈ l, lo r ≤ x ∧ x < hi r))

structure Wf (l : List ρ) : Prop where
  proper : ∀ r ∈ l, Proper r
  apart : l.Pairwise fun a b => hi a ≤ lo b

/-- No interval runs off the end of the word. What an edit does to the bytes a
list holds needs no more than this: empty intervals and overlaps are allowed. -/
def Fits (l : List ρ) : Prop := ∀ r ∈ l, hi r < 2 ^ 64

variable {l : List ρ}

theorem Wf.fits (hl : Wf l) : Fits l := fun r hr => (hl.proper r hr).fits

def Edges (B : Nat → Prop) (l : List ρ) : Prop := ∀ r ∈ l, B (lo r) ∧ B (hi r)

def tagAt (l : List ρ) (x : Nat) : Option τ :=
  (l.find? fun r => decide (lo r ≤ x) && decide (x < hi r)).map tag

theorem wf_nil : Wf ([] : List ρ) := ⟨fun _ h => absurd h (by simp), List.Pairwise.nil⟩

theorem wf_iff : Wf l ↔ (∀ r ∈ l, Proper r) ∧ l.Pairwise fun a b => hi a ≤ lo b :=
  ⟨fun h => ⟨h.proper, h.apart⟩, fun h => ⟨h.1, h.2⟩⟩

theorem wf_cons {r : ρ} : Wf (r :: l) ↔ Proper r ∧ (∀ s ∈ l, hi r ≤ lo s) ∧ Wf l := by
  rw [wf_iff, wf_iff, List.forall_mem_cons, List.pairwise_cons, and_assoc]
  exact and_congr_right' and_left_comm

variable {l₁ l₂ : List ρ}

theorem wf_append : Wf (l₁ ++ l₂) ↔ Wf l₁ ∧ Wf l₂ ∧ ∀ a ∈ l₁, ∀ b ∈ l₂, hi a ≤ lo b := by
  rw [wf_iff, wf_iff, wf_iff, List.forall_mem_append, List.pairwise_append, and_and_and_comm]
  exact and_congr_right' and_assoc.symm

@[simp] theorem not_holds_nil (x : Nat) (t : τ) : ¬ Holds ([] : List ρ) x t := by simp [Holds]

@[simp] theorem not_covers_nil (x : Nat) : ¬ Covers ([] : List ρ) x := by simp [Covers]

variable {x : Nat}

theorem holds_cons {r : ρ} {t : τ} : Holds (r :: l) x t ↔ (Has r x ∧ tag r = t) ∨ Holds l x t := by
  simp [Holds]

theorem covers_cons {r : ρ} : Covers (r :: l) x ↔ Has r x ∨ Covers l x := by simp [Covers]

theorem holds_append {t : τ} : Holds (l₁ ++ l₂) x t ↔ Holds l₁ x t ∨ Holds l₂ x t := by
  simp only [Holds]
  grind

theorem covers_append : Covers (l₁ ++ l₂) x ↔ Covers l₁ x ∨ Covers l₂ x := by
  simp only [Covers]
  grind

theorem covers_iff_holds : Covers l x ↔ ∃ t, Holds l x t := by
  constructor
  · rintro ⟨r, hr, hx⟩
    exact ⟨tag r, r, hr, hx, rfl⟩
  · rintro ⟨_, r, hr, hx, _⟩
    exact ⟨r, hr, hx⟩

theorem Wf.eq_of_has (hl : Wf l) {a b : ρ} (ha : a ∈ l) (hb : b ∈ l) (hax : Has a x)
    (hbx : Has b x) : a = b := by
  induction l with
  | nil => cases ha
  | cons r _ ih =>
    obtain ⟨_, hlo, hrest⟩ := wf_cons.mp hl
    unfold Has at hax hbx
    rcases List.mem_cons.mp ha with ha' | ha' <;>
      rcases List.mem_cons.mp hb with hb' | hb'
    · rw [ha', hb']
    · have := hlo b hb'; rw [ha'] at hax; omega
    · have := hlo a ha'; rw [hb'] at hbx; omega
    · exact ih hrest ha' hb'

theorem holds_of_tagAt {t : τ} (h : tagAt l x = some t) : Holds l x t := by
  obtain ⟨r, hr, rfl⟩ := Option.map_eq_some_iff.mp h
  have hpred := List.find?_some hr
  simp only [Bool.and_eq_true, decide_eq_true_eq] at hpred
  exact ⟨r, List.mem_of_find?_eq_some hr, hpred, rfl⟩

theorem Wf.tagAt_eq_some (hl : Wf l) {t : τ} : tagAt l x = some t ↔ Holds l x t := by
  refine ⟨holds_of_tagAt, ?_⟩
  rintro ⟨r, hr, hrx, rfl⟩
  unfold tagAt
  cases hf : l.find? fun r => decide (lo r ≤ x) && decide (x < hi r) with
  | none =>
    have hno := List.find?_eq_none.mp hf r hr
    simp only [Bool.and_eq_true, decide_eq_true_eq] at hno
    exact absurd hrx hno
  | some r' =>
    have hmem := List.mem_of_find?_eq_some hf
    have hpred := List.find?_some hf
    simp only [Bool.and_eq_true, decide_eq_true_eq] at hpred
    rw [hl.eq_of_has hmem hr hpred hrx]
    rfl

theorem tagAt_eq_none : tagAt l x = none ↔ ¬ Covers l x := by
  unfold tagAt Covers Has
  rw [Option.map_eq_none_iff]
  grind

theorem tagAt_isSome : (tagAt l x).isSome = true ↔ Covers l x := by
  have h := tagAt_eq_none (l := l) (x := x)
  cases ht : tagAt l x with
  | none => simp [h.mp ht]
  | some t =>
    have : Covers l x := by
      by_contra hc
      rw [h.mpr hc] at ht
      cases ht
    simp [this]

theorem tagAt_eq {o : Option τ} (h : ∀ t, Holds l x t ↔ o = some t) : tagAt l x = o := by
  cases ht : tagAt l x with
  | some t => exact ((h t).mp (holds_of_tagAt ht)).symm
  | none =>
    cases o with
    | none => rfl
    | some t =>
      have hcov := covers_iff_holds.mpr ⟨t, (h t).mpr rfl⟩
      exact absurd hcov (tagAt_eq_none.mp ht)

theorem Wf.tagAt_congr {l l' : List ρ} (hl : Wf l) (h : ∀ t, Holds l' x t ↔ Holds l x t) :
    tagAt l' x = tagAt l x :=
  tagAt_eq fun t => (h t).trans hl.tagAt_eq_some.symm

/-! ## Retagging in place -/

section Map

variable {l : List ρ} {f : ρ → ρ} (hb : ∀ r, begin (f r) = begin r)
include hb

theorem lo_map (r : ρ) : lo (f r) = lo r := by
  unfold lo
  rw [hb]

variable (hs : ∀ r, size (f r) = size r)
include hs

theorem hi_map (r : ρ) : hi (f r) = hi r := by
  unfold hi
  rw [hb, hs]

theorem Wf.map (hl : Wf l) : Wf (l.map f) := by
  refine ⟨fun q hq => ?_, List.pairwise_map.mpr (hl.apart.imp fun h => ?_)⟩
  · obtain ⟨r, hr, rfl⟩ := List.mem_map.mp hq
    have hp := hl.proper r hr
    exact ⟨by rw [lo_map hb, hi_map hb hs]; exact hp.nonempty, by rw [hi_map hb hs]; exact hp.fits⟩
  · rw [lo_map hb, hi_map hb hs]
    exact h

theorem holds_map {t : τ} : Holds (l.map f) x t ↔ ∃ r ∈ l, Has r x ∧ tag (f r) = t := by
  unfold Holds Has
  simp [lo_map hb, hi_map hb hs]

theorem edges_map {B : Nat → Prop} (hB : Edges B l) : Edges B (l.map f) := by
  intro q hq
  obtain ⟨r, hr, rfl⟩ := List.mem_map.mp hq
  rw [lo_map hb, hi_map hb hs]
  exact hB r hr

end Map

/-! ## Cutting a span out of a list

`cut b e mid` is what every edit of such a list does to one interval: leave it
alone when it misses `[b, e)`, and otherwise keep what sticks out on either
side, with whatever `mid` puts in the middle. -/

/-- The interval shares a byte with `[b, e)`, or strictly contains an empty one. -/
def Meets (b e : UInt64) (r : ρ) : Prop := b.toNat < hi r ∧ lo r < e.toNat

def cut (b e : UInt64) (mid : ρ → List ρ) (r : ρ) : List ρ :=
  if stop r ≤ b ∨ e ≤ begin r then [r]
  else
    (if begin r < b then [place r (begin r) (b - begin r)] else []) ++ mid r ++
      (if e < stop r then [place r e (stop r - e)] else [])

def leftOf (b : UInt64) (r : ρ) : ρ := place r (begin r) (b - begin r)

def rightOf (e : UInt64) (r : ρ) : ρ := place r e (stop r - e)

@[simp] theorem tag_leftOf (b : UInt64) (r : ρ) : tag (leftOf b r) = tag r := tag_place r _ _

@[simp] theorem tag_rightOf (e : UInt64) (r : ρ) : tag (rightOf e r) = tag r := tag_place r _ _

@[simp] theorem lo_leftOf (b : UInt64) (r : ρ) : lo (leftOf b r) = lo r := lo_place r _ _

@[simp] theorem lo_rightOf (e : UInt64) (r : ρ) : lo (rightOf e r) = e.toNat := lo_place r _ _

theorem hi_leftOf {b : UInt64} {r : ρ} (h : lo r ≤ b.toNat) : hi (leftOf b r) = b.toNat := by
  unfold leftOf lo at *
  rw [hi_place, toNat_sub_of_le h]
  omega

theorem hi_rightOf {e : UInt64} {r : ρ} (hr : hi r < 2 ^ 64) (h : e.toNat ≤ hi r) :
    hi (rightOf e r) = hi r := by
  have hs := stop_toNat hr
  unfold rightOf
  rw [hi_place, toNat_sub_of_le (by omega)]
  omega

variable {mid : ρ → List ρ} {b e : UInt64}

theorem mem_cut {r s : ρ} (hr : hi r < 2 ^ 64) : s ∈ cut b e mid r ↔ (¬ Meets b e r ∧ s = r) ∨
      (Meets b e r ∧ ((lo r < b.toNat ∧ s = leftOf b r) ∨ s ∈ mid r ∨
        (e.toNat < hi r ∧ s = rightOf e r))) := by
  have hs := stop_toNat hr
  unfold cut Meets
  simp only [UInt64.le_iff_toNat_le, UInt64.lt_iff_toNat_lt, hs]
  change _ ∈ (if hi r ≤ b.toNat ∨ e.toNat ≤ lo r then _ else _) ↔ _
  by_cases hm : hi r ≤ b.toNat ∨ e.toNat ≤ lo r
  · rw [if_pos hm, List.mem_singleton]
    constructor
    · intro h
      exact .inl ⟨by omega, h⟩
    · rintro (⟨_, h⟩ | ⟨h, _⟩)
      · exact h
      · omega
  · rw [if_neg hm]
    have hl : s ∈ (if (begin r).toNat < b.toNat
        then [place r (begin r) (b - begin r)] else []) ↔
        lo r < b.toNat ∧ s = leftOf b r := by
      unfold lo leftOf
      split <;> rename_i h <;> simp [h]
    have hh : s ∈ (if e.toNat < hi r then [place r e (stop r - e)] else []) ↔
        e.toNat < hi r ∧ s = rightOf e r := by
      unfold rightOf
      split <;> rename_i h <;> simp [h]
    rw [List.mem_append, List.mem_append, hl, hh]
    have hmeet : b.toNat < hi r ∧ lo r < e.toNat := by omega
    simp [hmeet, or_assoc]

structure Fills (b e : UInt64) (mid : ρ → List ρ) (r : ρ) : Prop where
  wf : Wf (mid r)
  inside : ∀ s ∈ mid r, max (lo r) b.toNat ≤ lo s ∧ hi s ≤ min (hi r) e.toNat

theorem fills_nil (b e : UInt64) (r : ρ) : Fills b e (fun _ => []) r :=
  ⟨wf_nil, fun _ h => absurd h (by simp)⟩

theorem cut_spec {r : ρ} (hr : Proper r) (hbe : b.toNat ≤ e.toNat)
    (hmid : Meets b e r → Fills b e mid r) :
    Wf (cut b e mid r) ∧ ∀ s ∈ cut b e mid r, lo r ≤ lo s ∧ hi s ≤ hi r := by
  have hfit := hr.fits
  by_cases hm : Meets b e r
  · have hf := hmid hm
    have hcut : cut b e mid r = (if lo r < b.toNat then [leftOf b r] else []) ++
          (mid r ++ (if e.toNat < hi r then [rightOf e r] else [])) := by
      have hs := stop_toNat hfit
      unfold Meets at hm
      unfold cut
      simp only [UInt64.le_iff_toNat_le, UInt64.lt_iff_toNat_lt, hs]
      rw [if_neg (show ¬ (hi r ≤ b.toNat ∨ e.toNat ≤ (begin r).toNat) by
        unfold lo at hm; omega), List.append_assoc]
      rfl
    unfold Meets at hm
    have hright : Wf (if e.toNat < hi r then [rightOf e r] else []) ∧
        ∀ s ∈ (if e.toNat < hi r then [rightOf e r] else []), lo s = e.toNat ∧ hi s = hi r := by
      split <;> rename_i h
      · have hhi := hi_rightOf hfit h.le
        refine ⟨wf_cons.mpr ⟨⟨?_, ?_⟩, by simp, wf_nil⟩, ?_⟩
        · rw [hhi, lo_rightOf]; exact h
        · rw [hhi]; exact hfit
        · intro s hs
          rw [List.mem_singleton.mp hs]
          exact ⟨lo_rightOf e r, hhi⟩
      · exact ⟨wf_nil, fun _ h => absurd h (by simp)⟩
    have hleft : Wf (if lo r < b.toNat then [leftOf b r] else []) ∧
        ∀ s ∈ (if lo r < b.toNat then [leftOf b r] else []), lo s = lo r ∧ hi s = b.toNat := by
      split <;> rename_i h
      · have hhi := hi_leftOf h.le
        refine ⟨wf_cons.mpr ⟨⟨?_, ?_⟩, by simp, wf_nil⟩, ?_⟩
        · rw [hhi, lo_leftOf]; exact h
        · omega
        · intro s hs
          rw [List.mem_singleton.mp hs]
          exact ⟨lo_leftOf b r, hhi⟩
      · exact ⟨wf_nil, fun _ h => absurd h (by simp)⟩
    rw [hcut]
    refine ⟨wf_append.mpr ⟨hleft.1, wf_append.mpr ⟨hf.wf, hright.1, ?_⟩, ?_⟩, ?_⟩
    · intro s hs s' hs'
      have h1 := hf.inside s hs
      have h2 := hright.2 s' hs'
      omega
    · intro s hs s' hs'
      have h1 := hleft.2 s hs
      rcases List.mem_append.mp hs' with hs' | hs'
      · have h2 := hf.inside s' hs'
        omega
      · have h2 := hright.2 s' hs'
        omega
    · intro s hs
      rcases List.mem_append.mp hs with hs | hs
      · have h1 := hleft.2 s hs
        omega
      · rcases List.mem_append.mp hs with hs | hs
        · have h1 := hf.inside s hs
          omega
        · have h1 := hright.2 s hs
          omega
  · have hcut : cut b e mid r = [r] := by
      have hs := stop_toNat hfit
      unfold Meets at hm
      unfold cut
      simp only [UInt64.le_iff_toNat_le]
      exact if_pos (by unfold lo at hm; omega)
    rw [hcut]
    refine ⟨wf_cons.mpr ⟨hr, by simp, wf_nil⟩, ?_⟩
    intro s hs
    rw [List.mem_singleton.mp hs]
    exact ⟨le_rfl, le_rfl⟩

variable {l : List ρ}

theorem Wf.flatMap_cut (hl : Wf l) (hbe : b.toNat ≤ e.toNat)
    (hmid : ∀ r ∈ l, Meets b e r → Fills b e mid r) : Wf (l.flatMap (cut b e mid)) := by
  have hspec := fun r hr => cut_spec (hl.proper r hr) hbe (hmid r hr)
  refine ⟨fun s hs => ?_, List.pairwise_flatMap.mpr ⟨fun r hr => (hspec r hr).1.apart, ?_⟩⟩
  · obtain ⟨r, hr, hs⟩ := List.mem_flatMap.mp hs
    exact (hspec r hr).1.proper s hs
  · refine hl.apart.imp_of_mem fun {a c} ha hc hac s hs s' hs' => ?_
    have h1 := (hspec a ha).2 s hs
    have h2 := (hspec c hc).2 s' hs'
    omega

theorem Fits.holds_flatMap_cut (hl : Fits l) {t : τ} : Holds (l.flatMap (cut b e mid)) x t ↔
      (Holds l x t ∧ ¬ (b.toNat ≤ x ∧ x < e.toNat)) ∨ ∃ r ∈ l, Meets b e r ∧ Holds (mid r) x t := by
  constructor
  · rintro ⟨s, hs, hsx, rfl⟩
    obtain ⟨r, hr, hs⟩ := List.mem_flatMap.mp hs
    have hp := hl r hr
    unfold Has at hsx
    rcases (mem_cut hp).mp hs with ⟨hm, rfl⟩ | ⟨hm, hs⟩
    · unfold Meets at hm
      exact .inl ⟨⟨s, hr, hsx, rfl⟩, by omega⟩
    · rcases hs with ⟨hlt, rfl⟩ | hs | ⟨hlt, rfl⟩
      · rw [lo_leftOf, hi_leftOf hlt.le] at hsx
        unfold Meets at hm
        refine .inl ⟨⟨r, hr, ?_, (tag_leftOf b r).symm⟩, by omega⟩
        unfold Has
        omega
      · exact .inr ⟨r, hr, hm, s, hs, hsx, rfl⟩
      · rw [lo_rightOf, hi_rightOf hp hlt.le] at hsx
        unfold Meets at hm
        refine .inl ⟨⟨r, hr, ?_, (tag_rightOf e r).symm⟩, by omega⟩
        unfold Has
        omega
  · rintro (⟨⟨r, hr, hrx, rfl⟩, hx⟩ | ⟨r, hr, hm, s, hs, hsx, rfl⟩)
    · have hp := hl r hr
      unfold Has at hrx
      by_cases hm : Meets b e r
      · rcases Nat.lt_or_ge x b.toNat with hxb | hxb
        · have hlt : lo r < b.toNat := by omega
          refine ⟨leftOf b r, List.mem_flatMap.mpr ⟨r, hr, (mem_cut hp).mpr
            (.inr ⟨hm, .inl ⟨hlt, rfl⟩⟩)⟩, ?_, tag_leftOf b r⟩
          unfold Has
          rw [lo_leftOf, hi_leftOf hlt.le]
          omega
        · have hlt : e.toNat < hi r := by omega
          refine ⟨rightOf e r, List.mem_flatMap.mpr ⟨r, hr, (mem_cut hp).mpr
            (.inr ⟨hm, .inr (.inr ⟨hlt, rfl⟩)⟩)⟩, ?_, tag_rightOf e r⟩
          unfold Has
          rw [lo_rightOf, hi_rightOf hp hlt.le]
          omega
      · exact ⟨r, List.mem_flatMap.mpr ⟨r, hr, (mem_cut hp).mpr (.inl ⟨hm, rfl⟩)⟩, hrx, rfl⟩
    · exact ⟨s, List.mem_flatMap.mpr ⟨r, hr, (mem_cut (hl r hr)).mpr
        (.inr ⟨hm, .inr (.inl hs)⟩)⟩, hsx, rfl⟩

theorem Fits.flatMap_cut (hl : Fits l) (hmid : ∀ r ∈ l, Meets b e r → Fits (mid r)) :
    Fits (l.flatMap (cut b e mid)) := by
  intro s hs
  obtain ⟨r, hr, hs⟩ := List.mem_flatMap.mp hs
  have hfit := hl r hr
  rcases (mem_cut hfit).mp hs with ⟨_, rfl⟩ | ⟨hm, ⟨hlt, rfl⟩ | hs | ⟨hlt, rfl⟩⟩
  · exact hfit
  · rw [hi_leftOf hlt.le]
    exact toNat_lt_word b
  · exact hmid r hr hm s hs
  · rw [hi_rightOf hfit hlt.le]
    exact hfit

theorem Wf.edges_flatMap_cut (hl : Wf l) {B : Nat → Prop} (hB : Edges B l) {mid : ρ → List ρ}
    (hb : ∀ r ∈ l, Meets b e r → lo r < b.toNat → B b.toNat)
    (he : ∀ r ∈ l, Meets b e r → e.toNat < hi r → B e.toNat)
    (hmid : ∀ r ∈ l, Meets b e r → Edges B (mid r)) : Edges B (l.flatMap (cut b e mid)) := by
  intro s hs
  obtain ⟨r, hr, hs⟩ := List.mem_flatMap.mp hs
  have hp := hl.proper r hr
  have hBr := hB r hr
  rcases (mem_cut hp.fits).mp hs with ⟨_, rfl⟩ | ⟨hm, ⟨hlt, rfl⟩ | hs | ⟨hlt, rfl⟩⟩
  · exact hBr
  · rw [lo_leftOf, hi_leftOf hlt.le]
    exact ⟨hBr.1, hb r hr hm hlt⟩
  · exact hmid r hr hm s hs
  · rw [lo_rightOf, hi_rightOf hp.fits hlt.le]
    exact ⟨he r hr hm hlt, hBr.2⟩

theorem Fits.flatMap_cut_of_not_meets (hl : Fits l) (h : ∀ r ∈ l, ¬ Meets b e r) :
    l.flatMap (cut b e mid) = l := by
  induction l with
  | nil => rfl
  | cons r _ ih =>
    have hcut : cut b e mid r = [r] := by
      have hm := h r (by simp)
      have hs := stop_toNat (hl r (by simp))
      unfold Meets lo at hm
      unfold cut
      simp only [UInt64.le_iff_toNat_le]
      exact if_pos (by omega)
    rw [List.flatMap_cons, hcut, ih (fun s hs => hl s (by simp [hs]))
      fun s hs => h s (by simp [hs])]
    rfl

/-! ## Normal form

A list whose intervals do not even touch: the one list of its kind for the set
of bytes it covers. -/

structure Normal (l : List ρ) : Prop where
  proper : ∀ r ∈ l, Proper r
  separate : l.Pairwise fun a b => hi a < lo b

theorem Normal.wf (hl : Normal l) : Wf l := ⟨hl.proper, hl.separate.imp fun h => h.le⟩

theorem normal_nil : Normal ([] : List ρ) := ⟨wf_nil.proper, List.Pairwise.nil⟩

theorem normal_iff : Normal l ↔ (∀ r ∈ l, Proper r) ∧ l.Pairwise fun a b => hi a < lo b :=
  ⟨fun h => ⟨h.proper, h.separate⟩, fun h => ⟨h.1, h.2⟩⟩

theorem normal_cons {r : ρ} : Normal (r :: l) ↔ Proper r ∧ (∀ s ∈ l, hi r < lo s) ∧ Normal l := by
  rw [normal_iff, normal_iff, List.forall_mem_cons, List.pairwise_cons, and_assoc]
  exact and_congr_right' and_left_comm

theorem normal_append {l₁ l₂ : List ρ} :
    Normal (l₁ ++ l₂) ↔ Normal l₁ ∧ Normal l₂ ∧ ∀ a ∈ l₁, ∀ b ∈ l₂, hi a < lo b := by
  rw [normal_iff, normal_iff, normal_iff, List.forall_mem_append, List.pairwise_append,
    and_and_and_comm]
  exact and_congr_right' and_assoc.symm

theorem Normal.mem_of_covers (hl : Normal l) {a b : Nat} (hab : a < b)
    (h : ∀ x, a ≤ x → x < b → Covers l x) : ∃ r ∈ l, lo r ≤ a ∧ b ≤ hi r := by
  obtain ⟨r, hr, hra⟩ := h a le_rfl hab
  unfold Has at hra
  refine ⟨r, hr, hra.1, ?_⟩
  by_contra hlt
  -- The byte right after `r` is covered too, and by nothing that touches `r`.
  obtain ⟨s, hs, hsx⟩ := h (hi r) (by omega) (by omega)
  unfold Has at hsx
  have hne : s ≠ r := by
    rintro rfl
    omega
  have hor : hi r < lo s ∨ hi s < lo r := by
    rcases List.mem_iff_append.mp hr with ⟨_, _, rfl⟩
    obtain ⟨_, h₂, h₁₂⟩ := normal_append.mp hl
    obtain ⟨_, h₃, _⟩ := normal_cons.mp h₂
    rcases List.mem_append.mp hs with hs | hs
    · exact .inr (h₁₂ s hs r (by simp))
    · rcases List.mem_cons.mp hs with rfl | hs
      · exact absurd rfl hne
      · exact .inl (h₃ s hs)
  omega

theorem Normal.flatMap_cut (hl : Normal l) (hbe : b.toNat < e.toNat) :
    Normal (l.flatMap (cut b e fun _ => [])) := by
  have hspec : ∀ r ∈ l, ∀ s ∈ cut b e (fun _ => []) r, lo r ≤ lo s ∧ hi s ≤ hi r :=
    fun r hr => (cut_spec (hl.proper r hr) hbe.le fun _ => fills_nil b e r).2
  refine ⟨(hl.wf.flatMap_cut hbe.le fun r _ _ => fills_nil b e r).proper,
    List.pairwise_flatMap.mpr ⟨fun r hr => ?_, ?_⟩⟩
  · unfold cut
    split
    · exact List.pairwise_singleton _ _
    · split <;> rename_i h1 <;> split <;> rename_i h2 <;>
        simp only [List.nil_append, List.Pairwise.nil, List.cons_append, List.pairwise_cons,
          List.mem_singleton, forall_eq, List.not_mem_nil, false_imp_iff, implies_true, and_true]
      have hl1 := hi_leftOf h1.le
      have hr1 := lo_rightOf e r
      unfold leftOf at hl1
      unfold rightOf at hr1
      omega
  · refine hl.separate.imp_of_mem fun {a c} ha hc hac s hs s' hs' => ?_
    have h1 := hspec a ha s hs
    have h2 := hspec c hc s' hs'
    omega

theorem Wf.covers_cutOut (hl : Wf l) : Covers (l.flatMap (cut b e fun _ => [])) x ↔
      Covers l x ∧ ¬ (b.toNat ≤ x ∧ x < e.toNat) := by
  rw [covers_iff_holds, covers_iff_holds]
  constructor
  · rintro ⟨t, ht⟩
    rcases hl.fits.holds_flatMap_cut.mp ht with ⟨h, hx⟩ | ⟨_, _, _, h⟩
    · exact ⟨⟨t, h⟩, hx⟩
    · exact absurd h (not_holds_nil x t)
  · rintro ⟨⟨t, ht⟩, hx⟩
    exact ⟨t, hl.fits.holds_flatMap_cut.mpr (.inl ⟨ht, hx⟩)⟩

/-! ## Joining neighbours

A list is joined front to back: an interval that starts where the last one
stopped, with the same tag, is folded into it. -/

section Join

variable [DecidableEq τ]

def joinFrom (last : ρ) : List ρ → List ρ
  | [] => [last]
  | r :: rest =>
    if stop last = begin r ∧ tag last = tag r
    then joinFrom (place last (begin last) (size last + size r)) rest
    else last :: joinFrom r rest

def join : List ρ → List ρ
  | [] => []
  | r :: rest => joinFrom r rest

omit [DecidableEq τ] in
theorem place_join {a b : ρ} (ha : hi a < 2 ^ 64) (hb : hi b < 2 ^ 64) (h : stop a = begin b) :
    lo (place a (begin a) (size a + size b)) = lo a ∧
    hi (place a (begin a) (size a + size b)) = hi b ∧ hi a = lo b := by
  have hs := stop_toNat ha
  rw [h] at hs
  have hsum : (size a + size b).toNat = (size a).toNat + (size b).toNat := by
    apply toNat_add_of_lt
    unfold hi at hb hs
    omega
  rw [lo_place, hi_place, hsum]
  unfold hi lo at *
  omega

variable {l : List ρ}

theorem exists_tag_joinFrom {last r : ρ} (hr : r ∈ last :: l) :
    ∃ q ∈ joinFrom last l, tag q = tag r := by
  induction l generalizing last r with
  | nil => exact ⟨r, hr, rfl⟩
  | cons next rest ih =>
    rw [joinFrom]
    split
    next hjoin =>
      have hlast : ∃ q ∈ joinFrom (place last (begin last) (size last + size next)) rest,
          tag q = tag last := by
        obtain ⟨q, hq, htag⟩ := ih List.mem_cons_self
        exact ⟨q, hq, htag.trans (tag_place _ _ _)⟩
      rcases List.mem_cons.mp hr with rfl | hr
      · exact hlast
      · rcases List.mem_cons.mp hr with rfl | hr
        · rw [← hjoin.2]
          exact hlast
        · exact ih (List.mem_cons_of_mem _ hr)
    · rcases List.mem_cons.mp hr with rfl | hr
      · exact ⟨r, List.mem_cons_self, rfl⟩
      · obtain ⟨q, hq, htag⟩ := ih hr
        exact ⟨q, List.mem_cons_of_mem _ hq, htag⟩

theorem exists_tag_join {r : ρ} (hr : r ∈ l) : ∃ q ∈ join l, tag q = tag r := by
  cases l with
  | nil => exact absurd hr List.not_mem_nil
  | cons _ _ => exact exists_tag_joinFrom hr

theorem joinFrom_holds {last : ρ} (hl : Fits (last :: l)) : Fits (joinFrom last l) ∧
      ∀ x t, Holds (joinFrom last l) x t ↔ Holds (last :: l) x t := by
  induction l generalizing last with
  | nil => exact ⟨hl, fun _ _ => Iff.rfl⟩
  | cons r rest ih =>
    have hlast := hl last (by simp)
    have hr := hl r (by simp)
    rw [joinFrom]
    split
    next hjoin =>
      obtain ⟨h1, h2, h3⟩ := place_join hlast hr hjoin.1
      have hnew : Fits (place last (begin last) (size last + size r) :: rest) := by
        intro s hs
        rcases List.mem_cons.mp hs with rfl | hs
        · rw [h2]
          exact hr
        · exact hl s (by simp [hs])
      obtain ⟨hf, hh⟩ := ih hnew
      refine ⟨hf, fun x t => ?_⟩
      rw [hh, holds_cons, holds_cons, holds_cons, tag_place]
      unfold Has
      have htag : tag last = t ↔ tag r = t := by rw [hjoin.2]
      have hle : lo last ≤ hi last := Nat.le_add_right _ _
      have hle' : lo r ≤ hi r := Nat.le_add_right _ _
      rw [← htag]
      constructor
      · rintro (⟨h, ht⟩ | h)
        · rcases Nat.lt_or_ge x (lo r) with hx | hx
          · exact .inl ⟨by omega, ht⟩
          · exact .inr (.inl ⟨by omega, ht⟩)
        · exact .inr (.inr h)
      · rintro (⟨h, ht⟩ | ⟨h, ht⟩ | h)
        · exact .inl ⟨by omega, ht⟩
        · exact .inl ⟨by omega, ht⟩
        · exact .inr h
    · obtain ⟨hf, hh⟩ := ih fun s hs => hl s (List.mem_cons_of_mem _ hs)
      refine ⟨fun s hs => ?_, fun x t => ?_⟩
      · rcases List.mem_cons.mp hs with rfl | hs
        · exact hlast
        · exact hf s hs
      · rw [holds_cons, holds_cons, hh]

theorem Fits.join (hl : Fits l) : Fits (join l) := by
  cases l with
  | nil => exact hl
  | cons r _ => exact (joinFrom_holds hl).1

theorem Fits.holds_join (hl : Fits l) {t : τ} : Holds (Spanned.join l) x t ↔ Holds l x t := by
  cases l with
  | nil => exact Iff.rfl
  | cons r _ => exact (joinFrom_holds hl).2 x t

theorem joinFrom_spec {last : ρ} (hl : Wf (last :: l)) :
    Wf (joinFrom last l) ∧ (∀ s ∈ joinFrom last l, lo last ≤ lo s) ∧
    ∀ B, Edges B (last :: l) → Edges B (joinFrom last l) := by
  induction l generalizing last with
  | nil =>
    refine ⟨hl, fun s hs => ?_, fun _ h => h⟩
    rw [List.mem_singleton.mp hs]
  | cons r rest ih =>
    obtain ⟨hlast, hlo, hrest⟩ := wf_cons.mp hl
    obtain ⟨hr, hrlo, hrest'⟩ := wf_cons.mp hrest
    rw [joinFrom]
    split
    next hjoin =>
      obtain ⟨h1, h2, h3⟩ := place_join hlast.fits hr.fits hjoin.1
      have hne := hlast.nonempty
      have hne' := hr.nonempty
      have hnew : Wf (place last (begin last) (size last + size r) :: rest) := by
        refine wf_cons.mpr ⟨⟨by omega, by rw [h2]; exact hr.fits⟩, ?_, hrest'⟩
        intro s hs
        rw [h2]
        exact hrlo s hs
      obtain ⟨hw, hle, hB⟩ := ih hnew
      refine ⟨hw, fun s hs => h1 ▸ hle s hs, fun B hBl => hB B fun s hs => ?_⟩
      rcases List.mem_cons.mp hs with rfl | hs
      · rw [h1, h2]
        exact ⟨(hBl last (by simp)).1, (hBl r (by simp)).2⟩
      · exact hBl s (by simp [hs])
    · obtain ⟨hw, hle, hB⟩ := ih hrest
      have hbelow : ∀ s ∈ joinFrom r rest, hi last ≤ lo s := by
        intro s hs
        have := hle s hs
        have := hlo r (by simp)
        omega
      have hne := hlast.nonempty
      refine ⟨wf_cons.mpr ⟨hlast, hbelow, hw⟩, fun s hs => ?_, fun B hBl s hs => ?_⟩
      · rcases List.mem_cons.mp hs with rfl | hs
        · exact le_rfl
        · have := hbelow s hs
          omega
      · rcases List.mem_cons.mp hs with rfl | hs
        · exact hBl s (by simp)
        · exact hB B (fun s hs => hBl s (by simp [hs])) s hs

theorem Wf.join (hl : Wf l) : Wf (join l) := by
  cases l with
  | nil => exact hl
  | cons r _ => exact (joinFrom_spec hl).1

theorem Wf.edges_join (hl : Wf l) {B : Nat → Prop} (hB : Edges B l) : Edges B (Spanned.join l) := by
  cases l with
  | nil => exact hB
  | cons r _ => exact (joinFrom_spec hl).2.2 B hB

end Join

/-! ## Sorting

Sorting by start turns intervals that are disjoint in any order into a list
that is disjoint in this one. -/

def sortByBegin (l : List ρ) : List ρ := l.insertionSort fun a b => begin a ≤ begin b

variable {l : List ρ}

theorem mem_sortByBegin {r : ρ} : r ∈ sortByBegin l ↔ r ∈ l := (List.perm_insertionSort _ l).mem_iff

instance beginTotal : Std.Total fun a b : ρ => begin a ≤ begin b :=
  ⟨fun a b => UInt64.le_total (begin a) (begin b)⟩

instance beginTrans : IsTrans ρ fun a b : ρ => begin a ≤ begin b :=
  ⟨fun _ _ _ h h' => UInt64.le_trans h h'⟩

theorem wf_sortByBegin (hp : ∀ r ∈ l, Proper r)
    (hd : l.Pairwise fun a b => hi a ≤ lo b ∨ hi b ≤ lo a) : Wf (sortByBegin l) := by
  have hd' : (sortByBegin l).Pairwise fun a b => hi a ≤ lo b ∨ hi b ≤ lo a :=
    ((List.perm_insertionSort _ l).pairwise_iff fun h => Or.symm h).mpr hd
  have hs : (sortByBegin l).Pairwise fun a b => begin a ≤ begin b := List.pairwise_insertionSort _ l
  refine ⟨fun r hr => hp r (mem_sortByBegin.mp hr), ?_⟩
  refine (hs.and hd').imp_of_mem fun {a b} ha hb h => ?_
  have hpb := (hp b (mem_sortByBegin.mp hb)).nonempty
  have hle : lo a ≤ lo b := UInt64.le_iff_toNat_le.mp h.1
  omega

theorem holds_sortByBegin {t : τ} : Holds (sortByBegin l) x t ↔ Holds l x t := by
  unfold Holds
  simp only [mem_sortByBegin]

theorem edges_sortByBegin {B : Nat → Prop} (hB : Edges B l) : Edges B (sortByBegin l) :=
  fun r hr => hB r (mem_sortByBegin.mp hr)

theorem Fits.sortByBegin (hl : Fits l) : Fits (sortByBegin l) :=
  fun r hr => hl r (mem_sortByBegin.mp hr)

theorem Wf.sortByBegin (hl : Wf l) : Wf (sortByBegin l) :=
  wf_sortByBegin hl.proper (hl.apart.imp fun h => .inl h)

/-! ## Overwriting

A new interval wins over whatever it lands on: cut, append, sort, join. -/

section Overwrite

variable [DecidableEq τ]

def overwrite (l : List ρ) (r : ρ) : List ρ :=
  join (sortByBegin (l.flatMap (cut (begin r) (stop r) fun _ => []) ++ [r]))

variable {l : List ρ} {r : ρ}

omit [DecidableEq τ] in
theorem wf_overwrite_sorted (hl : Wf l) (hr : Proper r) :
    Wf (sortByBegin (l.flatMap (cut (begin r) (stop r) fun _ => []) ++ [r])) := by
  have hs := stop_toNat hr.fits
  have hlt : (begin r).toNat < (stop r).toNat := by
    rw [hs]
    exact hr.nonempty
  have hcut : Wf (l.flatMap (cut (begin r) (stop r) fun _ => [])) :=
    hl.flatMap_cut (Nat.le_of_lt hlt) fun s _ _ => fills_nil _ _ s
  apply wf_sortByBegin
  · intro s hs
    rcases List.mem_append.mp hs with hs | hs
    · exact hcut.proper s hs
    · rw [List.mem_singleton.mp hs]
      exact hr
  · refine List.pairwise_append.mpr ⟨hcut.apart.imp fun h => Or.inl h,
      List.pairwise_singleton _ _, fun s hsl r' hr' => ?_⟩
    rw [List.mem_singleton.mp hr']
    -- A byte of `s` inside `r` would survive the cut.
    by_contra hcon
    have hne := (hcut.proper s hsl).nonempty
    have hrn := hr.nonempty
    have hcov : Covers (l.flatMap (cut (begin r) (stop r) fun _ => []))
        (max (lo s) (lo r)) := ⟨s, hsl, by unfold Has; omega⟩
    have hno := (hl.covers_cutOut.mp hcov).2
    change ¬ (lo r ≤ _ ∧ _) at hno
    omega

theorem Wf.overwrite (hl : Wf l) (hr : Proper r) : Wf (overwrite l r) :=
  (wf_overwrite_sorted hl hr).join

omit [DecidableEq τ] in
theorem fits_overwrite_sorted (hl : Fits l) (hr : hi r < 2 ^ 64) :
    Fits (sortByBegin (l.flatMap (cut (begin r) (stop r) fun _ => []) ++ [r])) := by
  refine Fits.sortByBegin fun s hs => ?_
  rcases List.mem_append.mp hs with hs | hs
  · exact hl.flatMap_cut (fun _ _ _ s hs => absurd hs (by simp)) s hs
  · rw [List.mem_singleton.mp hs]
    exact hr

theorem Fits.overwrite (hl : Fits l) (hr : hi r < 2 ^ 64) : Fits (overwrite l r) :=
  (fits_overwrite_sorted hl hr).join

theorem Fits.holds_overwrite (hl : Fits l) (hr : hi r < 2 ^ 64) {t : τ} :
    Holds (Spanned.overwrite l r) x t ↔ (Holds l x t ∧ ¬ Has r x) ∨ (Has r x ∧ tag r = t) := by
  unfold Spanned.overwrite
  rw [(fits_overwrite_sorted hl hr).holds_join, holds_sortByBegin, holds_append,
    hl.holds_flatMap_cut, holds_cons, stop_toNat hr]
  unfold Has lo
  simp

theorem Wf.tagAt_overwrite (hl : Wf l) (hr : Proper r) (x : Nat) :
    tagAt (Spanned.overwrite l r) x = if lo r ≤ x ∧ x < hi r then some (tag r) else tagAt l x := by
  refine tagAt_eq fun t => ?_
  rw [hl.fits.holds_overwrite hr.fits]
  unfold Has
  split <;> rename_i h <;> simp [h, hl.tagAt_eq_some]

theorem Wf.edges_overwrite (hl : Wf l) (hr : Proper r) {B : Nat → Prop}
    (hB : Edges B l) (hlo : B (lo r)) (hhi : B (hi r)) : Edges B (Spanned.overwrite l r) := by
  refine (wf_overwrite_sorted hl hr).edges_join (edges_sortByBegin ?_)
  intro s hs
  rcases List.mem_append.mp hs with hs | hs
  · exact hl.edges_flatMap_cut hB (fun _ _ _ _ => hlo)
      (fun _ _ _ _ => by rw [stop_toNat hr.fits]; exact hhi)
      (fun _ _ _ => fun _ h => absurd h (by simp)) s hs
  · rw [List.mem_singleton.mp hs]
    exact ⟨hlo, hhi⟩

end Overwrite

/-! ## Gaps

The maximal runs of `[c, e)` that no interval covers, found in one pass with a
cursor. -/

def window (c e : UInt64) : List (UInt64 × UInt64) := if c < e then [(c, e)] else []

def gapsFrom (e : UInt64) : UInt64 → List ρ → List (UInt64 × UInt64)
  | c, [] => window c e
  | c, r :: rest =>
    if stop r ≤ c then gapsFrom e c rest
    else if e ≤ begin r then window c e
    else
      window c (begin r) ++ (if e ≤ wordMax c (stop r) then []
          else gapsFrom e (wordMax c (stop r)) rest)

/-- A gap of `[c, e)`: non-empty, uncovered, and stopped on either side by an
end of the window or by an interval. -/
structure IsGap (l : List ρ) (c e : UInt64) (g : UInt64 × UInt64) : Prop where
  low : c.toNat ≤ g.1.toNat
  pos : g.1.toNat < g.2.toNat
  high : g.2.toNat ≤ e.toNat
  free : ∀ x, g.1.toNat ≤ x → x < g.2.toNat → ¬ Covers l x
  left : g.1 = c ∨ ∃ r ∈ l, hi r = g.1.toNat
  right : g.2 = e ∨ ∃ r ∈ l, lo r = g.2.toNat

structure Gaps (l : List ρ) (c e : UInt64) (gs : List (UInt64 × UInt64)) : Prop where
  isGap : ∀ g ∈ gs, IsGap l c e g
  sorted : gs.Pairwise fun g g' => g.2.toNat ≤ g'.1.toNat
  all : ∀ x, c.toNat ≤ x → x < e.toNat → ¬ Covers l x → ∃ g ∈ gs, g.1.toNat ≤ x ∧ x < g.2.toNat

theorem mem_window {c : UInt64} {g : UInt64 × UInt64} :
    g ∈ window c e ↔ c.toNat < e.toNat ∧ g = (c, e) := by
  unfold window
  split <;> rename_i h <;> rw [UInt64.lt_iff_toNat_lt] at h <;> simp [h]

theorem pairwise_window (c e : UInt64) :
    (window c e).Pairwise fun g g' => g.2.toNat ≤ g'.1.toNat := by
  unfold window
  split
  · exact List.pairwise_singleton _ _
  · exact List.Pairwise.nil

variable {l : List ρ} {c : UInt64} {gs : List (UInt64 × UInt64)}

theorem gaps_window (hfree : ∀ x, c.toNat ≤ x → x < e.toNat → ¬ Covers l x) :
    Gaps l c e (window c e) := by
  refine ⟨fun g hg => ?_, pairwise_window c e, fun x h1 h2 _ => ?_⟩
  · obtain ⟨hlt, rfl⟩ := mem_window.mp hg
    exact ⟨le_rfl, hlt, le_rfl, hfree, .inl rfl, .inl rfl⟩
  · exact ⟨(c, e), mem_window.mpr ⟨by omega, rfl⟩, h1, h2⟩

theorem Gaps.skip {r : ρ} (hg : Gaps l c e gs) (hr : hi r ≤ c.toNat) : Gaps (r :: l) c e gs := by
  have hcov : ∀ x, c.toNat ≤ x → (Covers (r :: l) x ↔ Covers l x) := by
    intro x hx
    rw [covers_cons]
    unfold Has
    constructor
    · rintro (h | h)
      · omega
      · exact h
    · exact .inr
  refine ⟨fun g hgs => ?_, hg.sorted, fun x h1 h2 h3 => ?_⟩
  · have h := hg.isGap g hgs
    refine ⟨h.low, h.pos, h.high, fun x h1 h2 => ?_, ?_, ?_⟩
    · rw [hcov x (h.low.trans h1)]
      exact h.free x h1 h2
    · exact h.left.imp_right fun ⟨s, hs, h⟩ => ⟨s, by simp [hs], h⟩
    · exact h.right.imp_right fun ⟨s, hs, h⟩ => ⟨s, by simp [hs], h⟩
  · exact hg.all x h1 h2 fun h => h3 ((hcov x h1).mpr h)

theorem Gaps.step {r : ρ} {m : UInt64} (hl : Wf (r :: l)) (hm : m.toNat = hi r)
    (hc : c.toNat < hi r) (he : lo r < e.toNat) (hg : Gaps l m e gs) :
    Gaps (r :: l) c e (window c (begin r) ++ gs) := by
  obtain ⟨hr, hlo, _⟩ := wf_cons.mp hl
  have hne := hr.nonempty
  have hnone : ∀ x, x < hi r → ¬ Covers l x := by
    rintro x hx ⟨s, hs, hsx⟩
    have := hlo s hs
    unfold Has at hsx
    omega
  refine ⟨fun g hgs => ?_, List.pairwise_append.mpr ⟨pairwise_window _ _, hg.sorted, ?_⟩,
    fun x h1 h2 h3 => ?_⟩
  · rcases List.mem_append.mp hgs with hgs | hgs
    · obtain ⟨hlt, rfl⟩ := mem_window.mp hgs
      refine ⟨le_rfl, hlt, he.le, fun x h1 h2 => ?_, .inl rfl, .inr ⟨r, by simp, rfl⟩⟩
      change x < lo r at h2
      rw [covers_cons]
      unfold Has
      rintro (h | h)
      · omega
      · exact hnone x (by omega) h
    · have h := hg.isGap g hgs
      have hlow := h.low
      refine ⟨by omega, h.pos, h.high, fun x h1 h2 => ?_, .inr ?_, ?_⟩
      · rw [covers_cons]
        unfold Has
        rintro (h' | h')
        · omega
        · exact h.free x h1 h2 h'
      · rcases h.left with h' | ⟨s, hs, h'⟩
        · exact ⟨r, by simp, by rw [h', hm]⟩
        · exact ⟨s, by simp [hs], h'⟩
      · exact h.right.imp_right fun ⟨s, hs, h⟩ => ⟨s, by simp [hs], h⟩
  · intro g hgs g' hgs'
    obtain ⟨-, rfl⟩ := mem_window.mp hgs
    have h := (hg.isGap g' hgs').low
    change lo r ≤ _
    omega
  · rw [covers_cons] at h3
    unfold Has at h3
    push Not at h3
    rcases Nat.lt_or_ge x (lo r) with hx | hx
    · refine ⟨(c, begin r), List.mem_append_left _ (mem_window.mpr ⟨?_, rfl⟩), h1, hx⟩
      change c.toNat < lo r
      omega
    · obtain ⟨g, hgs, hgx⟩ := hg.all x (by omega) h2 h3.2
      exact ⟨g, List.mem_append_right _ hgs, hgx⟩

theorem Wf.gaps (hl : Wf l) (c e : UInt64) : Gaps l c e (gapsFrom e c l) := by
  induction l generalizing c with
  | nil => exact gaps_window fun x _ _ => not_covers_nil x
  | cons r _ ih =>
    obtain ⟨hr, hlo, hrest⟩ := wf_cons.mp hl
    have hs := stop_toNat hr.fits
    rw [gapsFrom]
    split
    next hskip =>
      rw [UInt64.le_iff_toNat_le, hs] at hskip
      exact (ih hrest c).skip hskip
    next hskip =>
      rw [UInt64.le_iff_toNat_le] at hskip
      split
      next hpast =>
        change e.toNat ≤ lo r at hpast
        apply gaps_window
        rintro x h1 h2 ⟨s, hs, hsx⟩
        unfold Has at hsx
        rcases List.mem_cons.mp hs with rfl | hs
        · omega
        · have := hlo s hs
          have := hr.nonempty
          omega
      next hpast =>
        change ¬ e.toNat ≤ lo r at hpast
        have hmax : (wordMax c (stop r)).toNat = hi r := by
          rw [toNat_wordMax]
          omega
        refine Gaps.step hl hmax (by omega) (by omega) ?_
        split
        next hdone =>
          rw [UInt64.le_iff_toNat_le] at hdone
          exact ⟨fun _ h => absurd h (by simp), List.Pairwise.nil,
            fun x h1 h2 => absurd h1 (by omega)⟩
        · exact ih hrest _

end Spanned

end Fathom.Lib
