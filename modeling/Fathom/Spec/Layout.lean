import Fathom.Lib.Word

/-!
# What an arena is for

The abstract arena: which bytes have an owner, with what attributes, and which bytes may
be handed out.
-/

namespace Fathom

open Lib

def pageOf (p x : Nat) : Set Nat := {y | roundDown p y = roundDown p x}

def touched (p b e : Nat) : Set Nat := {x | ∃ y ∈ Set.Ico b e, y ∈ pageOf p x}

@[ext] structure Layout (α : Type) where
  attr : Nat → Option α
  free : Set Nat

namespace Layout

variable {α : Type} (L : Layout α)

def Apart : Prop := ∀ x ∈ L.free, L.attr x = none

/-- `[b, e)` gets an owner with attribute `t`, whoever had it before. -/
@[simps] def place (b e : Nat) (t : α) : Layout α where
  attr x := if b ≤ x ∧ x < e then some t else L.attr x
  free := L.free \ Set.Ico b e

@[simps] def retag (b e : Nat) (f : Nat → α → α) : Layout α where
  attr x := if b ≤ x ∧ x < e then (L.attr x).map (f x) else L.attr x
  free := L.free

@[simps] def withhold (b e : Nat) : Layout α where
  attr := L.attr
  free := L.free \ Set.Ico b e

@[simps] def drop (p b e : Nat) : Layout α where
  attr x := if b ≤ x ∧ x < e then none else L.attr x
  free := L.free ∪ {x ∈ touched p b e |
    ∀ y ∈ pageOf p x, y ∈ Set.Ico b e ∨ L.attr y = none}

variable {L}

theorem Apart.place (h : L.Apart) (b e : Nat) (t : α) : (L.place b e t).Apart := by
  rintro x ⟨hfree, hout⟩
  rw [place_attr, if_neg (by simpa using hout)]
  exact h x hfree

theorem Apart.withhold (h : L.Apart) (b e : Nat) : (L.withhold b e).Apart := fun x hx => h x hx.1

end Layout

/-! ## Pages -/

section Pages

variable {p b e x : Nat}

theorem mem_pageOf_iff (hp : 0 < p) {y : Nat} :
    y ∈ pageOf p x ↔ roundDown p x ≤ y ∧ y < roundDown p x + p :=
  roundDown_eq_iff hp (dvd_roundDown p x)

theorem page_subset_span (hp : 0 < p) (hb : p ∣ b) (he : p ∣ e) (hx : b ≤ x ∧ x < e)
    {y : Nat} (hy : y ∈ pageOf p x) : b ≤ y ∧ y < e := by
  rw [mem_pageOf_iff hp] at hy
  have h1 := (le_roundDown_iff hp hb).mpr hx.1
  have h2 := add_le_of_dvd_of_lt (dvd_roundDown p x) he (Nat.lt_of_le_of_lt (roundDown_le p x) hx.2)
  omega

theorem pageOf_subset_iff (hp : 0 < p) :
    (∀ y ∈ pageOf p x, b ≤ y ∧ y < e) ↔ roundUp p b ≤ x ∧ x < roundDown p e := by
  have hx := roundDown_le p x
  have hx' := lt_roundDown_add hp x
  have hd := dvd_roundDown p x
  have hd' : p ∣ roundDown p x + p := Nat.dvd_add hd (Nat.dvd_refl p)
  have hends : (∀ y ∈ pageOf p x, b ≤ y ∧ y < e) ↔ b ≤ roundDown p x ∧ roundDown p x + p ≤ e := by
    constructor
    · intro h
      have h₁ := h (roundDown p x) ((mem_pageOf_iff hp).mpr ⟨le_rfl, by omega⟩)
      have h₂ := h (roundDown p x + p - 1) ((mem_pageOf_iff hp).mpr ⟨by omega, by omega⟩)
      omega
    · intro h y hy
      rw [mem_pageOf_iff hp] at hy
      omega
  rw [hends, ← roundUp_le_iff hp hd, ← le_roundDown_iff hp hd']
  constructor
  · omega
  · intro h
    refine ⟨(le_roundDown_iff hp (dvd_roundUp p b)).mpr h.1, ?_⟩
    exact add_le_of_dvd_of_lt hd (dvd_roundDown p e) (by omega)

theorem mem_touched_iff (hp : 0 < p) (hbe : b < e) :
    x ∈ touched p b e ↔ roundDown p b ≤ x ∧ x < roundUp p e := by
  have hx := roundDown_le p x
  have hx' := lt_roundDown_add hp x
  constructor
  · rintro ⟨y, hy, hpage⟩
    rw [mem_pageOf_iff hp] at hpage
    obtain ⟨h1, h2⟩ := Set.mem_Ico.mp hy
    constructor
    · -- `b` is below the end of the page of `x`, so its page is no later.
      have hstep : roundDown p b < roundDown p x + p :=
        (roundDown_lt_iff hp (Nat.dvd_add (dvd_roundDown p x) (Nat.dvd_refl p))).mpr (by omega)
      by_contra hcon
      have := add_le_of_dvd_of_lt (dvd_roundDown p x) (dvd_roundDown p b) (by omega)
      omega
    · have hlt : roundDown p x < roundUp p e :=
        (lt_roundUp_iff hp (dvd_roundDown p x)).mpr (by omega)
      have := add_le_of_dvd_of_lt (dvd_roundDown p x) (dvd_roundUp p e) hlt
      omega
  · rintro ⟨h1, h2⟩
    have hlo : roundDown p b ≤ roundDown p x := (le_roundDown_iff hp (dvd_roundDown p b)).mpr h1
    have hhi : roundDown p x < e := (lt_roundUp_iff hp (dvd_roundDown p x)).mp (by omega)
    have hb := lt_roundDown_add hp b
    refine ⟨max b (roundDown p x), Set.mem_Ico.mpr (by omega), ?_⟩
    rw [mem_pageOf_iff hp]
    omega

end Pages

/-! ## Nothing lost

Bytes may be in nobody's hands, but not whole pages of them: a page that is
not free has somebody on it, or it could never be handed out again. -/

namespace Layout

variable {α : Type} {L L' : Layout α} {p low high : Nat}

/-- Every page of `[low, high)` is wholly free or has an owner on it. -/
def Accounted (L : Layout α) (p low high : Nat) : Prop :=
  ∀ q, p ∣ q → low ≤ q → q + p ≤ high →
  (∀ x, q ≤ x → x < q + p → x ∈ L.free) ∨ ∃ x, q ≤ x ∧ x < q + p ∧ L.attr x ≠ none

section

variable (h : L.Accounted p low high)
include h

theorem Accounted.owned (hp : 0 < p) {b e : Nat} (hb : p ∣ b)
    (hin : ∀ x, b ≤ x → x < e → L'.attr x ≠ none)
    (hout : ∀ x, ¬ (b ≤ x ∧ x < e) → L'.attr x = L.attr x ∧ (x ∈ L'.free ↔ x ∈ L.free)) :
    L'.Accounted p low high := by
  intro q hq hlow hhigh
  by_cases hqe : b ≤ q ∧ q < e
  · exact .inr ⟨q, le_rfl, by omega, hin q hqe.1 hqe.2⟩
  · -- The page is clear of the change on one side or the other.
    have hclear : ∀ x, q ≤ x → x < q + p → ¬ (b ≤ x ∧ x < e) := by
      intro x h1 h2 hx
      refine hqe (?_)
      have hbq : b ≤ q := by
        by_contra hlt
        have := add_le_of_dvd_of_lt hq hb (by omega)
        omega
      exact ⟨hbq, by omega⟩
    refine (h q hq hlow hhigh).imp (fun hfree x h1 h2 => ?_) fun ⟨x, h1, h2, hx⟩ => ?_
    · exact (hout x (hclear x h1 h2)).2.mpr (hfree x h1 h2)
    · exact ⟨x, h1, h2, by rw [(hout x (hclear x h1 h2)).1]; exact hx⟩

theorem Accounted.place (hp : 0 < p) {b : Nat} (hb : p ∣ b) (e : Nat) (t : α) :
    (L.place b e t).Accounted p low high := by
  refine h.owned (e := e) hp hb (fun x h1 h2 => ?_) fun x hx => ?_
  · rw [place_attr, if_pos ⟨h1, h2⟩]
    simp
  · rw [place_attr, if_neg hx]
    exact ⟨rfl, fun hf => hf.1, fun hf => ⟨hf, by simpa using hx⟩⟩

theorem Accounted.retagged (hattr : ∀ x, L'.attr x = none → L.attr x = none)
    (hfree : L'.free = L.free) : L'.Accounted p low high := by
  intro q hq hlow hhigh
  rw [hfree]
  refine (h q hq hlow hhigh).imp_right fun ⟨x, h1, h2, hx⟩ => ?_
  exact ⟨x, h1, h2, fun hn => hx (hattr x hn)⟩

theorem Accounted.drop (hp : 0 < p) (b e : Nat) : (L.drop p b e).Accounted p low high := by
  intro q hq hlow hhigh
  have hpage : ∀ x, q ≤ x → x < q + p → ∀ y, y ∈ pageOf p x ↔ q ≤ y ∧ y < q + p := by
    intro x h1 h2 y
    rw [mem_pageOf_iff hp, (roundDown_eq_iff hp hq).mpr ⟨h1, h2⟩]
  rcases h q hq hlow hhigh with hfree | ⟨x, h1, h2, hx⟩
  · exact .inl fun x h1 h2 => .inl (hfree x h1 h2)
  · by_cases hleft : ∃ y, q ≤ y ∧ y < q + p ∧ (L.drop p b e).attr y ≠ none
    · exact .inr hleft
    · -- Nobody is left: the owner that was there was in the interval.
      have hgone : ∀ y, q ≤ y → y < q + p → y ∈ Set.Ico b e ∨ L.attr y = none := by
        intro y h3 h4
        by_contra hno
        rw [not_or] at hno
        refine hleft ⟨y, h3, h4, ?_⟩
        rw [drop_attr, if_neg (by simpa using hno.1)]
        exact hno.2
      refine .inl fun y h3 h4 => .inr ⟨⟨x, ?_, ?_⟩, fun z hz => ?_⟩
      · exact (hgone x h1 h2).resolve_right hx
      · exact (hpage y h3 h4 x).mpr ⟨h1, h2⟩
      · have := (hpage y h3 h4 z).mp hz
        exact hgone z this.1 this.2

end

/-! ## There and back -/

structure Same (L L' : Layout α) : Prop where
  owned : ∀ x, L'.attr x = none ↔ L.attr x = none
  free : L'.free = L.free

theorem Same.trans {L'' : Layout α} (h₁ : L.Same L') (h₂ : L'.Same L'') : L.Same L'' :=
  ⟨fun x => (h₂.owned x).trans (h₁.owned x), h₂.free.trans h₁.free⟩

theorem same_drop_iff (hp : 0 < p) (hL : L.Apart) {a n m : Nat} (ha : p ∣ a) (hn : p ∣ n)
    (hm : 0 < m) (hmn : m ≤ n) (hwas : ∀ x, a ≤ x → x < a + n → x ∈ L.free)
    (hattr : ∀ x, L'.attr x = none ↔ ¬ (a ≤ x ∧ x < a + n) ∧ L.attr x = none)
    (hfree : L'.free = L.free \ Set.Ico a (a + n)) : L.Same (L'.drop p a (a + m)) ↔ m = n := by
  constructor
  · intro hsame
    by_contra hne
    -- The first byte past the drop still has its owner.
    have hbyte := (hsame.owned (a + m)).mpr (hL _ (hwas (a + m) (by omega) (by omega)))
    rw [drop_attr, if_neg (by omega), hattr] at hbyte
    exact hbyte.1 (by omega)
  · rintro rfl
    constructor
    · intro x
      rw [drop_attr]
      split
      next hx => exact iff_of_true rfl (hL x (hwas x hx.1 hx.2))
      next hx => rw [hattr, and_iff_right hx]
    · ext x
      rw [drop_free, hfree]
      have htouch := mem_touched_iff (x := x) hp (show a < a + m by omega)
      rw [roundDown_of_dvd ha, roundUp_of_dvd hp (Nat.dvd_add ha hn)] at htouch
      constructor
      · rintro (hx | ⟨hx, _⟩)
        · exact hx.1
        · exact hwas x (htouch.mp hx).1 (htouch.mp hx).2
      · intro hx
        by_cases hin : a ≤ x ∧ x < a + m
        · refine .inr ⟨htouch.mpr hin, fun y hy => .inl ?_⟩
          exact page_subset_span hp ha (Nat.dvd_add ha hn) hin hy
        · exact .inl ⟨hx, hin⟩

end Layout

end Fathom
