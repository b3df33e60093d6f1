import Fathom.Proofs.Edits

/-!
# The coarse maps

An arena has two bitmaps with a bit for each grain of it: one of where code was ever
compiled from, one of where memory was ever committed.
-/

namespace Fathom

open Lib Spanned

namespace GuestAddressSpace

variable {s : GuestAddressSpace}

/-! ## The grain

The constructor doubles the grain until 65536 words are enough. The size is
under `2 ^ 64`, so that is before the grain is `2 ^ 43`. -/

theorem growGrain_spec (size : UInt64) : ∀ (fuel k : Nat) {grain : UInt64},
    grain.toNat = 2 ^ k → k ≤ 42 → 43 ≤ k + fuel → 0 < (growGrain size fuel grain).toNat ∧
    size.toNat / (growGrain size fuel grain).toNat / 64 ≤ 65536 := by
  intro fuel
  induction fuel with
  | zero => omega
  | succ _ ih =>
    intro k grain hgrain hk hfuel
    have htest : size / grain / 64 > 65536 ↔ 65536 < size.toNat / 2 ^ k / 64 := by
      rw [gt_iff_lt, UInt64.lt_iff_toNat_lt, UInt64.toNat_div, UInt64.toNat_div, hgrain]
      exact Iff.rfl
    rw [growGrain]
    split
    next hmore =>
      have hsmall : k < 42 := by
        by_contra hge
        rw [htest, Nat.div_div_eq_div_mul, Nat.lt_div_iff_mul_lt (by positivity)] at hmore
        have hword := toNat_lt_word size
        have hpow := Nat.pow_le_pow_right (show 0 < 2 by decide) (Nat.not_lt.mp hge)
        omega
      refine ih (k + 1) ?_ hsmall (by omega)
      have hpow := Nat.pow_le_pow_right (show 0 < 2 by decide) hsmall
      rw [UInt64.toNat_mul, hgrain]
      exact Nat.mod_eq_of_lt (by
        change 2 ^ k * 2 < 2 ^ 64
        omega)
    next hdone =>
      rw [htest] at hdone
      rw [hgrain]
      exact ⟨Nat.two_pow_pos k, Nat.le_of_not_lt hdone⟩

/-! ## A walk

First what holds of any walk: it stops at the last word there is. -/

section Walk

variable {wordCount : UInt64} {set : Bool}

def SameBelow (wordCount : UInt64) (words words' : UInt64 → UInt64) : Prop :=
  ∀ w < wordCount, words w = words' w

theorem walkCodeMap_past (count : Nat) : ∀ {index : UInt64} {words : UInt64 → UInt64},
    ∀ w ≥ wordCount, (walkCodeMap wordCount set count index words).2 w = words w := by
  induction count with
  | zero =>
    intro index words w _
    rfl
  | succ _ ih =>
    intro index words w hw
    rw [walkCodeMap]
    split
    · rfl
    next hin =>
      rw [ih w hw]
      cases set with
      | false => rfl
      | true =>
        refine if_neg fun heq => hin ?_
        rw [← heq]
        exact hw

theorem walkCodeMap_local (set : Bool) (count : Nat) :
    ∀ (index : UInt64) {words words' : UInt64 → UInt64}, SameBelow wordCount words words' →
    (walkCodeMap wordCount set count index words).1 =
        (walkCodeMap wordCount set count index words').1 ∧
      SameBelow wordCount (walkCodeMap wordCount set count index words).2
        (walkCodeMap wordCount set count index words').2 := by
  induction count with
  | zero =>
    intro index words words' h
    exact ⟨rfl, h⟩
  | succ _ ih =>
    intro index words words' h
    rw [walkCodeMap, walkCodeMap]
    dsimp only
    split
    · exact ⟨rfl, h⟩
    next hin =>
      have hword := h (index / 64) (UInt64.not_le.mp hin)
      have hset : SameBelow wordCount (if set = true then fun w => if w = index / 64
            then words w ||| 1 <<< (index % 64) else words w else words)
          (if set = true then fun w => if w = index / 64
            then words' w ||| (1) <<< (index % 64) else words' w else words') := by
        intro w hw
        cases set with
        | false => exact h w hw
        | true => simp [h w hw]
      obtain ⟨hhad, hwords⟩ := ih (index + 1) hset
      rw [hhad, hword]
      exact ⟨rfl, hwords⟩

structure OnMap (wordCount index : UInt64) (count : Nat) : Prop where
  fits : index.toNat + count < 2 ^ 64
  words : ∀ i, index.toNat ≤ i → i < index.toNat + count → i / 64 < wordCount.toNat

theorem OnMap.tail {index : UInt64} {count : Nat} (h : OnMap wordCount index (count + 1)) :
    index / 64 < wordCount ∧ (index + 1).toNat = index.toNat + 1 ∧
    OnMap wordCount (index + 1) count := by
  have hfits := h.fits
  have hnext : (index + 1).toNat = index.toNat + 1 :=
    toNat_add_of_lt (by change index.toNat + 1 < _; omega)
  refine ⟨?_, hnext, by omega, fun i h1 h2 => h.words i (by omega) (by omega)⟩
  exact h.words index.toNat le_rfl (by omega)

theorem walkCodeMap_marks (count : Nat) : ∀ {index : UInt64} (words : UInt64 → UInt64),
    OnMap wordCount index count → ∀ i, (Bit (walkCodeMap wordCount true count index words).2 i ↔
      Bit words i ∨ (index.toNat ≤ i.toNat ∧ i.toNat < index.toNat + count)) := by
  induction count with
  | zero =>
    intro index words _ i
    exact ⟨.inl, fun h => h.resolve_right (by omega)⟩
  | succ _ ih =>
    intro index words h i
    obtain ⟨hin, hnext, hrest⟩ := h.tail
    rw [walkCodeMap]
    dsimp only
    rw [if_neg (UInt64.not_le.mpr hin), if_pos rfl, ih _ hrest, bit_or_shiftLeft]
    have heq : i = index ↔ i.toNat = index.toNat := UInt64.toNat_inj.symm
    rw [heq]
    constructor
    · rintro ((h1 | h1) | h1)
      · exact .inr (by omega)
      · exact .inl h1
      · exact .inr (by omega)
    · rintro (h1 | h1)
      · exact .inl (.inr h1)
      · rcases Nat.eq_or_lt_of_le h1.1 with h2 | h2
        · exact .inl (.inl h2.symm)
        · exact .inr (by omega)

theorem walkCodeMap_had (count : Nat) : ∀ {index : UInt64} {words : UInt64 → UInt64},
    OnMap wordCount index count → ((walkCodeMap wordCount false count index words).1 = true ↔
      ∃ i, (index.toNat ≤ i.toNat ∧ i.toNat < index.toNat + count) ∧ Bit words i) := by
  induction count with
  | zero =>
    intro index words _
    refine ⟨fun h => (nomatch h), ?_⟩
    rintro ⟨i, h, _⟩
    omega
  | succ _ ih =>
    intro index words h
    obtain ⟨hin, hnext, hrest⟩ := h.tail
    rw [walkCodeMap]
    rw [if_neg (UInt64.not_le.mpr hin), Bool.or_eq_true, ih hrest,
      bne_iff_ne, and_shiftLeft_ne_zero]
    constructor
    · rintro (⟨i, h1, h2⟩ | h2)
      · exact ⟨i, by omega, h2⟩
      · exact ⟨index, by omega, h2⟩
    · rintro ⟨i, h1, h2⟩
      rcases Nat.eq_or_lt_of_le h1.1 with h3 | h3
      · rw [UInt64.toNat_inj.mp h3]
        exact .inr h2
      · exact .inl ⟨i, by omega, h2⟩

end Walk

/-! ## The grains of a span -/

structure Grained (s : GuestAddressSpace) : Prop where
  grain : 0 < s.codeGrain.toNat
  words : s.codeWordCount.toNat = s.size.toNat / s.codeGrain.toNat / 64 + 1

theorem grained_new (g : Geometry) : (new g).Grained := by
  obtain ⟨hpos, hsmall⟩ := growGrain_spec g.size 64 16
    (show (64 * 1024 : UInt64).toNat = 2 ^ 16 from rfl) (by decide) (by decide)
  refine ⟨hpos, ?_⟩
  change (g.size / growGrain g.size 64 (64 * 1024) / 64 + 1).toNat = _
  rw [toNat_add_of_lt, UInt64.toNat_div]
  · rfl
  · rw [UInt64.toNat_div, UInt64.toNat_div]
    change g.size.toNat / _ / 64 + 1 < _
    omega

def grainOf (s : GuestAddressSpace) (a : UInt64) : UInt64 := (a - s.base) / s.codeGrain

theorem toNat_grainOf {a : UInt64} (ha : s.base.toNat ≤ a.toNat) :
    (s.grainOf a).toNat = (a.toNat - s.base.toNat) / s.codeGrain.toNat := by
  unfold grainOf
  rw [UInt64.toNat_div, toNat_sub_of_le ha]

theorem Grained.word_lt (hs : s.Grained) {a : UInt64} (ha : s.base.toNat ≤ a.toNat)
    (hlim : a.toNat < s.limit) : (s.grainOf a).toNat / 64 < s.codeWordCount.toNat := by
  unfold Geometry.limit at hlim
  rw [toNat_grainOf ha, hs.words]
  refine Nat.lt_succ_of_le (Nat.div_le_div_right (Nat.div_le_div_right ?_))
  omega

variable {b e : UInt64}

theorem Grained.span (hs : s.Grained) (hb : s.base.toNat ≤ b.toNat) (hbe : b.toNat < e.toNat)
    (he : e.toNat ≤ s.limit) : OnMap s.codeWordCount (s.grainsOf b e).1 (s.grainsOf b e).2 ∧
    ∀ a : UInt64, b.toNat ≤ a.toNat → a.toNat < e.toNat →
    (s.grainsOf b e).1.toNat ≤ (s.grainOf a).toNat ∧
    (s.grainOf a).toNat < (s.grainsOf b e).1.toNat + (s.grainsOf b e).2 := by
  have hlim := s.limit_lt
  have hlast : (e - 1).toNat = e.toNat - 1 := toNat_sub_of_le (by
    change 1 ≤ e.toNat
    omega)
  have hmono : ∀ {x y : UInt64}, s.base.toNat ≤ x.toNat → x.toNat ≤ y.toNat →
      (s.grainOf x).toNat ≤ (s.grainOf y).toNat := by
    intro x y hx hxy
    rw [toNat_grainOf hx, toNat_grainOf (by omega)]
    exact Nat.div_le_div_right (by omega)
  have hends := hmono hb (show b.toNat ≤ (e - 1).toNat by omega)
  have hfit : (s.grainOf (e - 1)).toNat + 1 < 2 ^ 64 := by
    rw [toNat_grainOf (by omega)]
    have hle := Nat.div_le_self ((e - 1).toNat - s.base.toNat) s.codeGrain.toNat
    omega
  have hword := hs.word_lt (a := e - 1) (by omega) (by omega)
  have hsum : (s.grainOf b).toNat + ((s.grainOf (e - 1)).toNat + 1 - (s.grainOf b).toNat) =
      (s.grainOf (e - 1)).toNat + 1 := by omega
  change OnMap _ (s.grainOf b) ((s.grainOf (e - 1)).toNat + 1 - (s.grainOf b).toNat) ∧
    ∀ a : UInt64, _ → _ → (s.grainOf b).toNat ≤ _ ∧ _ < (s.grainOf b).toNat +
      ((s.grainOf (e - 1)).toNat + 1 - (s.grainOf b).toNat)
  rw [hsum]
  refine ⟨⟨by omega, fun i _ hi => ?_⟩, fun a h1 h2 => ⟨hmono hb h1, ?_⟩⟩
  · refine Nat.lt_of_le_of_lt (Nat.div_le_div_right ?_) hword
    omega
  · exact Nat.lt_succ_of_le (hmono (by omega) (by omega))

/-! ## The questions -/

theorem outsideCodeMap_iff : s.outsideCodeMap b e = false ↔
    s.base.toNat ≤ b.toNat ∧ b.toNat < e.toNat ∧ e.toNat ≤ s.limit := by
  unfold outsideCodeMap
  rw [Bool.or_eq_false_iff, Bool.or_eq_false_iff, decide_eq_false_iff_not,
    decide_eq_false_iff_not, decide_eq_false_iff_not, gt_iff_lt, UInt64.le_iff_toNat_le,
    UInt64.lt_iff_toNat_lt, UInt64.lt_iff_toNat_lt, s.toNat_limit]
  omega

theorem hasHeldCode_outside (h : s.outsideCodeMap b e = true) : s.hasHeldCode b e = true := by
  unfold hasHeldCode
  rw [if_pos h]

section

variable (hs : s.Grained)
include hs

theorem Grained.hasHeldCode_iff (hin : s.outsideCodeMap b e = false) : s.hasHeldCode b e = true ↔
      ∃ i : UInt64, ((s.grainsOf b e).1.toNat ≤ i.toNat ∧
        i.toNat < (s.grainsOf b e).1.toNat + (s.grainsOf b e).2) ∧ Bit s.codeWords i := by
  obtain ⟨hb, hbe, he⟩ := outsideCodeMap_iff.mp hin
  unfold hasHeldCode
  rw [hin]
  exact walkCodeMap_had _ (hs.span hb hbe he).1

theorem Grained.noteExecutable_bit (hin : s.outsideCodeMap b e = false) (i : UInt64) :
    Bit (s.noteExecutable b e).2.codeWords i ↔ Bit s.codeWords i ∨
    ((s.grainsOf b e).1.toNat ≤ i.toNat ∧
      i.toNat < (s.grainsOf b e).1.toNat + (s.grainsOf b e).2) := by
  obtain ⟨hb, hbe, he⟩ := outsideCodeMap_iff.mp hin
  unfold noteExecutable
  rw [hin]
  exact walkCodeMap_marks _ _ (hs.span hb hbe he).1 i

theorem Grained.maybeCommitted_iff (a : UInt64) : s.maybeCommitted a = true ↔
      (s.base.toNat ≤ a.toNat → a.toNat < s.limit → Bit s.committedWords (s.grainOf a)) := by
  have hout : a < s.base ∨ a ≥ s.base + s.size ↔ a.toNat < s.base.toNat ∨ s.limit ≤ a.toNat := by
    rw [ge_iff_le, UInt64.lt_iff_toNat_lt, UInt64.le_iff_toNat_le, s.toNat_limit]
  unfold maybeCommitted
  by_cases hin : a.toNat < s.base.toNat ∨ s.limit ≤ a.toNat
  · rw [if_pos (hout.mpr hin)]
    exact ⟨fun _ h1 h2 => by omega, fun _ => rfl⟩
  · rw [if_neg (mt hout.mp hin)]
    have hword := hs.word_lt (a := a) (by omega) (by omega)
    rw [if_neg, bne_iff_ne]
    · rw [and_shiftLeft_ne_zero]
      exact ⟨fun h _ _ => h, fun h => h (by omega) (by omega)⟩
    · rw [UInt64.not_le, UInt64.lt_iff_toNat_lt]
      exact hword

end

/-! ## What is never forgotten -/

structure Remembers (s s' : GuestAddressSpace) : Prop where
  geometry : s'.toGeometry = s.toGeometry
  grain : s'.codeGrain = s.codeGrain
  words : s'.codeWordCount = s.codeWordCount
  code : ∀ i, Bit s.codeWords i → Bit s'.codeWords i
  committed : ∀ i, Bit s.committedWords i → Bit s'.committedWords i

theorem Remembers.refl (s : GuestAddressSpace) : s.Remembers s :=
  ⟨rfl, rfl, rfl, fun _ h => h, fun _ h => h⟩

theorem Remembers.trans {s₁ s₂ : GuestAddressSpace} (h₁ : s.Remembers s₁)
    (h₂ : s₁.Remembers s₂) : s.Remembers s₂ :=
  ⟨h₂.geometry.trans h₁.geometry, h₂.grain.trans h₁.grain, h₂.words.trans h₁.words,
    fun i h => h₂.code i (h₁.code i h), fun i h => h₂.committed i (h₁.committed i h)⟩

section Remembers

variable {s' : GuestAddressSpace}

section

variable (h : s.Remembers s') (hs : s.Grained)
include h hs

theorem Remembers.grained : s'.Grained := by
  constructor
  · rw [h.grain]
    exact hs.grain
  · rw [h.words, h.grain, h.geometry]
    exact hs.words

theorem Remembers.hasHeldCode (hheld : s.hasHeldCode b e = true) : s'.hasHeldCode b e = true := by
  have hsame : s'.outsideCodeMap b e = s.outsideCodeMap b e := by
    unfold outsideCodeMap
    rw [h.geometry]
  have hgrains : s'.grainsOf b e = s.grainsOf b e := by
    unfold grainsOf
    rw [h.geometry, h.grain]
  cases hin : s.outsideCodeMap b e with
  | true => exact hasHeldCode_outside (hsame.trans hin)
  | false =>
    obtain ⟨i, hi, hbit⟩ := (hs.hasHeldCode_iff hin).mp hheld
    rw [(h.grained hs).hasHeldCode_iff (hsame.trans hin), hgrains]
    exact ⟨i, hi, h.code i hbit⟩

theorem Remembers.maybeCommitted {a : UInt64}
    (hmaybe : s.maybeCommitted a = true) : s'.maybeCommitted a = true := by
  have hgrain : s'.grainOf a = s.grainOf a := by
    unfold grainOf
    rw [h.geometry, h.grain]
  rw [(h.grained hs).maybeCommitted_iff, h.geometry, hgrain]
  exact fun h1 h2 => h.committed _ ((hs.maybeCommitted_iff a).mp hmaybe h1 h2)

end

end Remembers

variable {s' : GuestAddressSpace}

structure Mapped (s : GuestAddressSpace) : Prop where
  grained : s.Grained
  fits : Fits s.committed
  bounded : s.Bounded s.base.toNat
  known : ∀ a : UInt64, Covers s.committed a.toNat → s.maybeCommitted a = true

theorem mapped_new (g : Geometry) : (new g).Mapped :=
  ⟨grained_new g, fun _ hr => (nomatch hr), (bounded_new g).mono (Nat.le_add_right _ _),
    fun _ h => absurd h (not_covers_nil _)⟩

theorem Mapped.keep (hs : s.Mapped) (hfits : Fits s'.committed)
    (hbounded : s'.Bounded s'.base.toNat) (hmaps : s.Remembers s')
    (hback : ∀ y t, Holds s'.committed y t → Covers s.committed y) : s'.Mapped := by
  refine ⟨hmaps.grained hs.grained, hfits, hbounded, fun a ha => ?_⟩
  obtain ⟨t, ht⟩ := covers_iff_holds.mp ha
  exact hmaps.maybeCommitted hs.grained (hs.known a (hback _ t ht))

theorem remembers_notify (s : GuestAddressSpace) (b e : UInt64) : s.Remembers (s.notify b e) := by
  unfold notify
  split <;> exact ⟨rfl, rfl, rfl, fun _ h => h, fun _ h => h⟩

theorem Grained.markCommitted (hs : s.Grained) {a n : UInt64} (hfit : a.toNat + n.toNat < 2 ^ 64) :
    s.Remembers (s.markCommitted a n) ∧
    (s.base.toNat ≤ a.toNat → a.toNat + n.toNat ≤ s.limit → ∀ x : UInt64,
      a.toNat ≤ x.toNat → x.toNat < a.toNat + n.toNat →
      Bit (s.markCommitted a n).committedWords (s.grainOf x)) := by
  have hsum := toNat_add_of_lt hfit
  unfold GuestAddressSpace.markCommitted
  split
  next hin =>
    obtain ⟨hn, hb, he⟩ := hin
    rw [UInt64.le_iff_toNat_le, s.toNat_limit] at he
    have hpos : 0 < n.toNat := toNat_pos hn
    obtain ⟨hmap, hspan⟩ := hs.span (e := a + n) hb (by omega) (by omega)
    have hmarks := walkCodeMap_marks _ s.committedWords hmap
    refine ⟨⟨rfl, rfl, rfl, fun _ h => h, fun i h => (hmarks i).mpr (.inl h)⟩,
      fun _ _ x h1 h2 => (hmarks _).mpr (.inr (hspan x h1 (by omega)))⟩
  next hout =>
    refine ⟨.refl s, fun hb he x h1 h2 => absurd ⟨?_, ?_, ?_⟩ hout⟩
    · rintro rfl
      rw [UInt64.toNat_zero] at h2
      omega
    · exact hb
    · rw [UInt64.le_iff_toNat_le, hsum, s.toNat_limit]
      exact he

def OneSide (g : Geometry) (a n : UInt64) : Prop :=
  (g.base.toNat ≤ a.toNat ∧ a.toNat + n.toNat ≤ g.limit) ∨
  a.toNat + n.toNat ≤ g.base.toNat ∨ g.limit ≤ a.toNat

theorem Mapped.record (hs : s.Mapped) {a n : UInt64} (p : Prot)
    (hfit : a.toNat + n.toNat < 2 ^ 64) (hside : OneSide s.toGeometry a n) :
    (s.recordCommitted a n p).Mapped ∧ s.Remembers (s.recordCommitted a n p) := by
  obtain ⟨hmark, hbits⟩ := hs.grained.markCommitted hfit
  have hgeo := s.recordCommitted_geometry a n p
  have hmaps : s.Remembers (s.recordCommitted a n p) :=
    ⟨hgeo, hmark.grain, hmark.words, hmark.code, hmark.committed⟩
  have hhi : hi (s.newRange a n p) < 2 ^ 64 := hfit
  refine ⟨⟨hmaps.grained hs.grained, ?_, ?_, fun x hx => ?_⟩, hmaps⟩
  · rw [recordCommitted_committed]
    exact hs.fits.overwrite hhi
  · rw [hgeo]
    exact hs.bounded.congr hgeo (s.recordCommitted_free a n p)
  · obtain ⟨t, ht⟩ := covers_iff_holds.mp hx
    rw [recordCommitted_committed, hs.fits.holds_overwrite hhi] at ht
    rcases ht with ⟨hold, _⟩ | ⟨⟨h1, h2⟩, _⟩
    · exact hmaps.maybeCommitted hs.grained (hs.known x (covers_iff_holds.mpr ⟨t, hold⟩))
    · change a.toNat ≤ x.toNat at h1
      change x.toNat < a.toNat + n.toNat at h2
      rw [(hmaps.grained hs.grained).maybeCommitted_iff, hgeo]
      intro h3 h4
      have hgrain : (s.recordCommitted a n p).grainOf x = s.grainOf x := by
        unfold grainOf
        rw [hgeo, hmaps.grain]
      rw [hgrain]
      rcases hside with hin | hout
      · exact hbits hin.1 hin.2 x h1 h2
      · omega

theorem Mapped.edits (hs : s.Mapped) {k : Nat} (h : s.Edits k s') : s'.Mapped ∧ s.Remembers s' := by
  induction h with
  | refl => exact ⟨hs, .refl s⟩
  | @free _ s₁ free _ hfree ih =>
    obtain ⟨hmapped, hmaps⟩ := ih
    have hsame : s₁.Remembers { s₁ with free } := ⟨rfl, rfl, rfl, fun _ h => h, fun _ h => h⟩
    exact ⟨hmapped.keep hmapped.fits hfree hsame fun _ t ht => covers_iff_holds.mpr ⟨t, ht⟩,
      hmaps.trans hsame⟩
  | @notify _ s₁ b e _ ih =>
    obtain ⟨hmapped, hmaps⟩ := ih
    obtain ⟨hgeo, hfree, hcommitted, _⟩ := s₁.notify_fields b e
    have hsame := s₁.remembers_notify b e
    refine ⟨hmapped.keep ?_ ?_ hsame fun _ t ht => covers_iff_holds.mpr ⟨t, ?_⟩, hmaps.trans hsame⟩
    · rw [hcommitted]
      exact hmapped.fits
    · rw [hgeo]
      exact hmapped.bounded.congr hgeo hfree
    · rw [← hcommitted]
      exact ht
  | @record _ s₁ a n p _ ha hn ih =>
    obtain ⟨hmapped, hmaps⟩ := ih
    have hlimit := s₁.limit_lt
    obtain ⟨hmapped', hsame⟩ := hmapped.record p (by omega) (.inl ⟨ha, hn⟩)
    exact ⟨hmapped', hmaps.trans hsame⟩
  | @thin _ s₁ committed _ hthin ih =>
    obtain ⟨hmapped, hmaps⟩ := ih
    have hsame : s₁.Remembers { s₁ with committed } := ⟨rfl, rfl, rfl, fun _ h => h, fun _ h => h⟩
    refine ⟨hmapped.keep (hthin.fits hmapped.fits) hmapped.bounded hsame fun y t ht => ?_,
      hmaps.trans hsame⟩
    obtain ⟨t', ht', _⟩ := hthin.held hmapped.fits y t ht
    exact covers_iff_holds.mpr ⟨t', ht'⟩

/-! ## Only the words there are -/

structure SameMaps (s s' : GuestAddressSpace) : Prop where
  geometry : s'.toGeometry = s.toGeometry
  grain : s'.codeGrain = s.codeGrain
  words : s'.codeWordCount = s.codeWordCount
  code : SameBelow s.codeWordCount s.codeWords s'.codeWords
  committed : SameBelow s.codeWordCount s.committedWords s'.committedWords

/-- No question and no mark reads a word that is not there, or changes one. -/
structure WithinWords (s : GuestAddressSpace) : Prop where
  held : ∀ s', s.SameMaps s' → ∀ b e, s'.hasHeldCode b e = s.hasHeldCode b e
  maybe : ∀ s', s.SameMaps s' → ∀ a, s'.maybeCommitted a = s.maybeCommitted a
  noted : ∀ s', s.SameMaps s' → ∀ b e, (s'.noteExecutable b e).1 = (s.noteExecutable b e).1 ∧
      (s.noteExecutable b e).2.SameMaps (s'.noteExecutable b e).2
  marked : ∀ s', s.SameMaps s' → ∀ a n, (s.markCommitted a n).SameMaps (s'.markCommitted a n)
  notedPast : ∀ b e, ∀ w ≥ s.codeWordCount, (s.noteExecutable b e).2.codeWords w = s.codeWords w
  markedPast : ∀ a n, ∀ w ≥ s.codeWordCount,
    (s.markCommitted a n).committedWords w = s.committedWords w

section SameMaps

variable {s' : GuestAddressSpace}

section

variable (h : s.SameMaps s')
include h

section

variable (b e)

theorem SameMaps.outsideCodeMap : s'.outsideCodeMap b e = s.outsideCodeMap b e := by
  unfold GuestAddressSpace.outsideCodeMap
  rw [h.geometry]

theorem SameMaps.grainsOf : s'.grainsOf b e = s.grainsOf b e := by
  unfold GuestAddressSpace.grainsOf
  rw [h.geometry, h.grain]

theorem SameMaps.hasHeldCode : s'.hasHeldCode b e = s.hasHeldCode b e := by
  unfold GuestAddressSpace.hasHeldCode
  rw [h.outsideCodeMap, h.grainsOf, h.words]
  split
  · rfl
  · exact (walkCodeMap_local _ _ _ h.code).1.symm

end

theorem SameMaps.maybeCommitted (a : UInt64) : s'.maybeCommitted a = s.maybeCommitted a := by
  unfold GuestAddressSpace.maybeCommitted
  rw [h.geometry, h.grain, h.words]
  split
  · rfl
  · dsimp only
    split
    · rfl
    next hin => rw [h.committed _ (UInt64.not_le.mp hin)]

theorem SameMaps.noteExecutable (b e : UInt64) : (s'.noteExecutable b e).1 =
    (s.noteExecutable b e).1 ∧ (s.noteExecutable b e).2.SameMaps (s'.noteExecutable b e).2 := by
  unfold GuestAddressSpace.noteExecutable
  rw [h.outsideCodeMap, h.grainsOf, h.words]
  split
  · exact ⟨rfl, h⟩
  · obtain ⟨hhad, hwords⟩ := walkCodeMap_local true (s.grainsOf b e).2 (s.grainsOf b e).1 h.code
    exact ⟨hhad.symm, h.geometry, h.grain, rfl, hwords, h.committed⟩

theorem SameMaps.markCommitted (a n : UInt64) :
    (s.markCommitted a n).SameMaps (s'.markCommitted a n) := by
  unfold GuestAddressSpace.markCommitted
  rw [h.geometry, h.grainsOf, h.words]
  split
  · exact ⟨rfl, h.grain, rfl, h.code, (walkCodeMap_local _ _ _ h.committed).2⟩
  · exact h

end

end SameMaps

theorem withinWords (s : GuestAddressSpace) : s.WithinWords where
  held _ h := h.hasHeldCode
  maybe _ h := h.maybeCommitted
  noted _ h := h.noteExecutable
  marked _ h := h.markCommitted
  notedPast b e w hw := by
    unfold noteExecutable
    split
    · rfl
    · exact walkCodeMap_past _ w hw
  markedPast a n w hw := by
    unfold markCommitted
    split
    · exact walkCodeMap_past _ w hw
    · rfl

/-! ## Runs -/

/-- What happens to an arena: a call, the compiler's note that it reads code,
the loader's mapping outside, and whatever else happens on the host. -/
inductive MapEvent where
  | call (c : Call)
  | noteExecutable (begin stop : UInt64)
  | adoptExternalMapping (address size : UInt64) (protection : Prot)
  | elsewhere (host : Host)

namespace MapEvent

def run (event : MapEvent) (m : Machine) : Machine :=
  match event with
  | call c => c.run m
  | noteExecutable begin stop => ⟨(m.space.noteExecutable begin stop).2, m.host⟩
  | adoptExternalMapping address size protection =>
    ⟨(m.space.adoptExternalMapping address size protection).2, m.host⟩
  | elsewhere host => ⟨m.space, host⟩

/-- Nothing wraps, and no mapping lies across an end of the arena. The
compiler's notes are not asked anything. -/
def Plain (g : Geometry) : MapEvent → Prop
  | call c => c.Plain g
  | adoptExternalMapping address size _ =>
    address.toNat + size.toNat < 2 ^ 64 ∧ OneSide g address size
  | noteExecutable .. | elsewhere .. => True

end MapEvent

def MapRun (g : Geometry) : Machine → Machine → Prop :=
  Relation.ReflTransGen fun m m' => ∃ event : MapEvent, event.Plain g ∧ m' = event.run m

theorem Mapped.noteExecutable (hs : s.Mapped) (b e : UInt64) :
    (s.noteExecutable b e).2.Mapped ∧ s.Remembers (s.noteExecutable b e).2 := by
  cases hin : s.outsideCodeMap b e with
  | true =>
    have hsame : (s.noteExecutable b e).2 = s := by
      unfold GuestAddressSpace.noteExecutable
      rw [if_pos hin]
    rw [hsame]
    exact ⟨hs, .refl s⟩
  | false =>
    have hbits := hs.grained.noteExecutable_bit hin
    have hwords : (s.noteExecutable b e).2 =
        { s with codeWords := (s.noteExecutable b e).2.codeWords } := by
      unfold GuestAddressSpace.noteExecutable
      rw [hin, if_neg Bool.false_ne_true]
    generalize (s.noteExecutable b e).2.codeWords = words at hbits hwords
    rw [hwords]
    have hmaps : s.Remembers { s with codeWords := words } :=
      ⟨rfl, rfl, rfl, fun i h => (hbits i).mpr (.inl h), fun _ h => h⟩
    exact ⟨hs.keep hs.fits hs.bounded hmaps fun _ t ht => covers_iff_holds.mpr ⟨t, ht⟩, hmaps⟩

theorem Mapped.run {m : Machine} (hs : m.space.Mapped) (event : MapEvent)
    (hplain : event.Plain m.space.toGeometry) :
    (event.run m).space.Mapped ∧ m.space.Remembers (event.run m).space := by
  cases event with
  | call c => exact hs.edits (Call.run_edits hs.bounded hplain)
  | noteExecutable b e => exact hs.noteExecutable b e
  | adoptExternalMapping a n p =>
    unfold MapEvent.run adoptExternalMapping
    dsimp only
    split
    · exact ⟨hs, .refl _⟩
    · exact hs.record p hplain.1 hplain.2
  | elsewhere h => exact ⟨hs, .refl _⟩

theorem MapRun.remembers {g : Geometry} {m m' : Machine} (hr : MapRun g m m') (hs : m.space.Mapped)
    (hgeo : m.space.toGeometry = g) : m'.space.Mapped ∧ m.space.Remembers m'.space := by
  induction hr with
  | refl => exact ⟨hs, .refl _⟩
  | tail _ hstep ih =>
    obtain ⟨hmapped, hmaps⟩ := ih
    obtain ⟨event, hplain, rfl⟩ := hstep
    obtain ⟨hmapped', hmaps'⟩ := hmapped.run event (by rw [hmaps.geometry, hgeo]; exact hplain)
    exact ⟨hmapped', hmaps.trans hmaps'⟩

theorem Mapped.hasHeldCode_noted (hs : s.Mapped) {x y z : UInt64} (hb : s.base.toNat ≤ b.toNat)
    (he : e.toNat ≤ s.limit) (hbe : b.toNat ≤ z.toNat ∧ z.toNat < e.toNat)
    (hxy : x.toNat ≤ z.toNat ∧ z.toNat < y.toNat) :
    (s.noteExecutable b e).2.hasHeldCode x y = true := by
  have hin : s.outsideCodeMap b e = false := outsideCodeMap_iff.mpr ⟨hb, by omega, he⟩
  have hbits := hs.grained.noteExecutable_bit hin
  obtain ⟨hmapped, hmaps⟩ := hs.noteExecutable b e
  generalize (s.noteExecutable b e).2 = s' at hbits hmapped hmaps
  cases hout : s'.outsideCodeMap x y with
  | true => exact hasHeldCode_outside hout
  | false =>
    -- The byte's own grain is one of both walks.
    obtain ⟨hx, hxy', hy⟩ := outsideCodeMap_iff.mp hout
    have hgrain : s'.grainOf z = s.grainOf z := by
      unfold grainOf
      rw [hmaps.geometry, hmaps.grain]
    refine (hmapped.grained.hasHeldCode_iff hout).mpr ⟨s.grainOf z, ?_, ?_⟩
    · rw [← hgrain]
      exact (hmapped.grained.span hx hxy' hy).2 z hxy.1 hxy.2
    · exact (hbits _).mpr (.inr ((hs.grained.span hb (by omega) he).2 z hbe.1 hbe.2))

/-- In every run the maps are walked within their words; an address at which
anything is committed is from then on one that may have been, and a span noted
is from then on one that held code. -/
theorem maps_remember {g : Geometry} {h : Host} {m : Machine} (hr : MapRun g ⟨new g, h⟩ m) :
    (m.space.codeWordCount = (new g).codeWordCount ∧ m.space.WithinWords) ∧
    (∀ a : UInt64, Covers m.space.committed a.toNat →
      ∀ m', MapRun g m m' → m'.space.maybeCommitted a = true) ∧
    ∀ b e : UInt64, g.base.toNat ≤ b.toNat → e.toNat ≤ g.limit →
      ∀ m', MapRun g ((MapEvent.noteExecutable b e).run m) m' →
      ∀ x y z : UInt64, b.toNat ≤ z.toNat ∧ z.toNat < e.toNat →
        x.toNat ≤ z.toNat ∧ z.toNat < y.toNat → m'.space.hasHeldCode x y = true := by
  obtain ⟨hmapped, hmaps⟩ := hr.remembers (mapped_new g) rfl
  have hgeo : m.space.toGeometry = g := hmaps.geometry
  refine ⟨⟨hmaps.words, withinWords _⟩, fun a ha m' hrest => ?_, ?_⟩
  · obtain ⟨_, hlater⟩ := hrest.remembers hmapped hgeo
    exact hlater.maybeCommitted hmapped.grained (hmapped.known a ha)
  · intro b e hb he m' hrest x y z hbe hxy
    rw [← hgeo] at hb he
    obtain ⟨hnoted, hnote⟩ := hmapped.noteExecutable b e
    obtain ⟨_, hlater⟩ := hrest.remembers hnoted (hnote.geometry.trans hgeo)
    exact hlater.hasHeldCode hnoted.grained (hmapped.hasHeldCode_noted hb he hbe hxy)

def pageCompiled : Machine :=
  (MapEvent.noteExecutable 0x100010000 0x100014000).run ⟨onePage.space, onePage.host⟩

def pageReleased : Machine := (MapEvent.call (.release 0x100010000 0x4000)).run pageCompiled

theorem maps_remember_pageReleased :
    MapRun Geometry.oneMegabyte ⟨new Geometry.oneMegabyte, Host.fresh⟩
        ⟨onePage.space, onePage.host⟩ ∧ pageReleased.space.maybeCommitted 0x100010000 = true ∧
      pageReleased.space.hasHeldCode 0x100013FFF 0x100018000 = true := by
  have hr : MapRun Geometry.oneMegabyte ⟨new Geometry.oneMegabyte, Host.fresh⟩
      ⟨onePage.space, onePage.host⟩ :=
    .single ⟨.call (.allocate 0x4000 0 3), ⟨by decide, by decide⟩, rfl⟩
  have hrel : MapRun Geometry.oneMegabyte pageCompiled pageReleased :=
    .single ⟨.call (.release 0x100010000 0x4000), ⟨by decide, by decide⟩, rfl⟩
  have hnote : MapRun Geometry.oneMegabyte ⟨onePage.space, onePage.host⟩ pageCompiled :=
    .single ⟨.noteExecutable 0x100010000 0x100014000, trivial, rfl⟩
  obtain ⟨_, hmaybe, hheld⟩ := maps_remember hr
  refine ⟨hr, hmaybe 0x100010000 ?_ _ (hnote.trans hrel),
    hheld 0x100010000 0x100014000 (by decide) (by decide) _ hrel 0x100013FFF 0x100018000
      0x100013FFF (by decide) (by decide)⟩
  exact ⟨⟨0x100010000, 0x4000, 3, 1, true⟩, by decide, by decide, by decide⟩

end GuestAddressSpace

end Fathom
