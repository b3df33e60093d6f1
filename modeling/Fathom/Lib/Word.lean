import Mathlib.Data.Nat.ModEq
import Mathlib.Tactic.Linarith
import Mathlib.Data.Nat.Bitwise
import Mathlib.Data.List.Basic

/-!
# Machine words, and rounding them to a page

Two things live here and neither knows what a page is for.
-/

namespace Fathom.Lib

/-! ## Rounding on the naturals -/

def roundDown (p n : Nat) : Nat := n - n % p

def roundUp (p n : Nat) : Nat := roundDown p (n + p - 1)

section Rounding

variable {p n a b : Nat}

theorem roundDown_le (p n : Nat) : roundDown p n ≤ n := Nat.sub_le _ _

theorem dvd_roundDown (p n : Nat) : p ∣ roundDown p n := Nat.dvd_sub_mod n

theorem lt_roundDown_add (hp : 0 < p) (n : Nat) : n < roundDown p n + p := by
  have hlt := Nat.mod_lt n hp
  unfold roundDown
  omega

theorem add_le_of_dvd_of_lt (ha : p ∣ a) (hb : p ∣ b) (hlt : a < b) : a + p ≤ b := by
  have hle : p ≤ b - a := Nat.le_of_dvd (by omega) (Nat.dvd_sub hb ha)
  omega

theorem le_roundDown_iff (hp : 0 < p) (ha : p ∣ a) : a ≤ roundDown p n ↔ a ≤ n := by
  constructor
  · intro h
    exact h.trans (roundDown_le p n)
  · by_contra hgt
    have hstep := add_le_of_dvd_of_lt (dvd_roundDown p n) ha (by omega)
    have hlt := lt_roundDown_add hp n
    omega

theorem roundDown_lt_iff (hp : 0 < p) (ha : p ∣ a) : roundDown p n < a ↔ n < a := by
  have h := le_roundDown_iff (n := n) hp ha
  omega

theorem dvd_roundUp (p n : Nat) : p ∣ roundUp p n := dvd_roundDown p _

theorem le_roundUp (hp : 0 < p) (n : Nat) : n ≤ roundUp p n := by
  have h := lt_roundDown_add hp (n + p - 1)
  unfold roundUp
  omega

theorem roundUp_lt (hp : 0 < p) (n : Nat) : roundUp p n < n + p := by
  have h := roundDown_le p (n + p - 1)
  unfold roundUp
  omega

theorem roundUp_le_iff (hp : 0 < p) (ha : p ∣ a) : roundUp p n ≤ a ↔ n ≤ a := by
  constructor
  · intro h
    exact Nat.le_trans (le_roundUp hp n) h
  · by_contra hgt
    have hstep := add_le_of_dvd_of_lt ha (dvd_roundUp p n) (by omega)
    have hlt := roundUp_lt hp n
    omega

theorem lt_roundUp_iff (hp : 0 < p) (ha : p ∣ a) : a < roundUp p n ↔ a < n := by
  have h := roundUp_le_iff (n := n) hp ha
  omega

theorem roundDown_of_dvd (h : p ∣ n) : roundDown p n = n := by
  unfold roundDown
  rw [Nat.mod_eq_zero_of_dvd h, Nat.sub_zero]

theorem roundUp_of_dvd (hp : 0 < p) (h : p ∣ n) : roundUp p n = n :=
  Nat.le_antisymm ((roundUp_le_iff hp h).mpr le_rfl) (le_roundUp hp n)

theorem roundUp_add_of_dvd (hp : 0 < p) (ha : p ∣ a) (n : Nat) :
    roundUp p (a + n) = a + roundUp p n := by
  refine Nat.le_antisymm ?_ ?_
  · rw [roundUp_le_iff hp (Nat.dvd_add ha (dvd_roundUp p n))]
    have := le_roundUp hp n
    omega
  · have hle := le_roundUp hp (a + n)
    have hsub : p ∣ roundUp p (a + n) - a := Nat.dvd_sub (dvd_roundUp p _) ha
    have := (roundUp_le_iff (n := n) hp hsub).mpr (by omega)
    omega

theorem roundDown_mono (hp : 0 < p) (h : a ≤ b) : roundDown p a ≤ roundDown p b :=
  (le_roundDown_iff hp (dvd_roundDown p a)).mpr (Nat.le_trans (roundDown_le p a) h)

theorem roundDown_eq_iff (hp : 0 < p) (ha : p ∣ a) : roundDown p n = a ↔ a ≤ n ∧ n < a + p := by
  constructor
  · rintro rfl
    exact ⟨roundDown_le p n, lt_roundDown_add hp n⟩
  · rintro ⟨hle, hlt⟩
    have h1 := (le_roundDown_iff hp ha).mpr hle
    have h2 := (roundDown_lt_iff hp (Nat.dvd_add ha (Nat.dvd_refl p))).mpr hlt
    by_contra hne
    have h3 := add_le_of_dvd_of_lt ha (dvd_roundDown p n) (by omega)
    omega

end Rounding

variable (v : UInt64) {page : UInt64}

/-! ## Words -/

theorem toNat_lt_word : v.toNat < 2 ^ 64 := v.toNat_lt

theorem toNat_pos {v : UInt64} (h : v ≠ 0) : 0 < v.toNat :=
  Nat.pos_of_ne_zero fun hzero => h (UInt64.toNat_inj.mp hzero)

theorem ne_zero_of_toNat_pos {v : UInt64} (h : 0 < v.toNat) : v ≠ 0 := by
  rintro rfl
  simp at h

theorem toNat_add_of_lt {a b : UInt64} (h : a.toNat + b.toNat < 2 ^ 64) :
    (a + b).toNat = a.toNat + b.toNat := by
  exact Nat.mod_eq_of_lt h

theorem toNat_sub_of_le {a b : UInt64} (h : b.toNat ≤ a.toNat) :
    (a - b).toNat = a.toNat - b.toNat :=
  UInt64.toNat_sub_of_le a b (UInt64.le_iff_toNat_le.mpr h)

def wordMax (a b : UInt64) : UInt64 := if a < b then b else a

def wordMin (a b : UInt64) : UInt64 := if b < a then b else a

theorem toNat_wordMax (a b : UInt64) : (wordMax a b).toNat = max a.toNat b.toNat := by
  unfold wordMax
  split <;> rename_i h <;> rw [UInt64.lt_iff_toNat_lt] at h <;> omega

theorem toNat_wordMin (a b : UInt64) : (wordMin a b).toNat = min a.toNat b.toNat := by
  unfold wordMin
  split <;> rename_i h <;> rw [UInt64.lt_iff_toNat_lt] at h <;> omega

def maskDown (page v : UInt64) : UInt64 := v &&& ~~~(page - 1)

def maskUp (page v : UInt64) : UInt64 := maskDown page (v + page - 1)

theorem and_not_add_and (m : UInt64) : (v &&& ~~~m) + (v &&& m) = v := by
  apply UInt64.eq_of_toBitVec_eq
  simp only [UInt64.toBitVec_add, UInt64.toBitVec_and, UInt64.toBitVec_not]
  generalize v.toBitVec = a
  generalize m.toBitVec = b
  rw [BitVec.add_eq_or_of_and_eq_zero]
  · ext i hi
    simp only [BitVec.getElem_or, BitVec.getElem_and, BitVec.getElem_not]
    cases a[i] <;> cases b[i] <;> rfl
  · ext i hi
    simp only [BitVec.getElem_and, BitVec.getElem_not, BitVec.getElem_zero]
    cases a[i] <;> cases b[i] <;> rfl

theorem toNat_maskDown {k : Nat} (hpage : page.toNat = 2 ^ k) (v : UInt64) :
    (maskDown page v).toNat = roundDown page.toNat v.toNat := by
  have hone : (1 : UInt64).toNat ≤ page.toNat := by
    rw [hpage]
    exact Nat.one_le_two_pow
  have hmask : (v &&& (page - 1)).toNat = v.toNat % 2 ^ k := by
    rw [UInt64.toNat_and, toNat_sub_of_le hone, hpage]
    exact Nat.and_two_pow_sub_one_eq_mod v.toNat k
  have hsum := congrArg UInt64.toNat (and_not_add_and v (page - 1))
  rw [UInt64.toNat_add] at hsum
  have hle : (v &&& ~~~(page - 1)).toNat ≤ v.toNat := by exact Nat.and_le_left
  have hmod : v.toNat % 2 ^ k ≤ v.toNat := Nat.mod_le _ _
  unfold maskDown roundDown
  rw [hpage]
  omega

theorem toNat_mask16 : (v &&& ~~~15).toNat = roundDown 16 v.toNat :=
  toNat_maskDown (show (16 : UInt64).toNat = 2 ^ 4 from rfl) v

theorem toNat_mask64 : (v &&& ~~~63).toNat = roundDown 64 v.toNat :=
  toNat_maskDown (show (64 : UInt64).toNat = 2 ^ 6 from rfl) v

theorem toNat_maskUp {k : Nat} (hpage : page.toNat = 2 ^ k) {v : UInt64}
    (h : v.toNat + page.toNat ≤ 2 ^ 64) : (maskUp page v).toNat = roundUp page.toNat v.toNat := by
  have hone : 1 ≤ page.toNat := by
    rw [hpage]
    exact Nat.one_le_two_pow
  have hsum : (v + page - 1).toNat = v.toNat + page.toNat - 1 := by
    show (2 ^ 64 - 1 + (v.toNat + page.toNat) % 2 ^ 64) % 2 ^ 64 = _
    omega
  unfold maskUp roundUp
  rw [toNat_maskDown hpage, hsum]

theorem maskUp_wraps {k : Nat} (hpage : page.toNat = 2 ^ k) {v : UInt64}
    (h : 2 ^ 64 < v.toNat + page.toNat) : maskUp page v = 0 := by
  have hv := toNat_lt_word v
  have hsum : (v + page - 1).toNat < page.toNat := by
    show (2 ^ 64 - 1 + (v.toNat + page.toNat) % 2 ^ 64) % 2 ^ 64 < _
    omega
  apply UInt64.toNat_inj.mp
  unfold maskUp
  rw [toNat_maskDown hpage]
  have h0 := (roundDown_lt_iff (by omega) (Nat.dvd_refl page.toNat)).mpr hsum
  have hd := dvd_roundDown page.toNat (v + page - 1).toNat
  exact Nat.eq_zero_of_dvd_of_lt hd h0

/-! ## A map of bits: bit `i` is bit `i % 64` of word `i / 64` -/

def Bit (words : UInt64 → UInt64) (i : UInt64) : Prop :=
  (words (i / 64)).toNat.testBit (i % 64).toNat = true

variable {words : UInt64 → UInt64} {i j : UInt64}

theorem toNat_one_shiftLeft (i : UInt64) :
    ((1 : UInt64) <<< (i % 64)).toNat = 2 ^ (i % 64).toNat := by
  have hlt : (i % 64).toNat < 64 := by exact Nat.mod_lt _ (by decide)
  rw [UInt64.toNat_shiftLeft, Nat.mod_eq_of_lt hlt, UInt64.toNat_one, Nat.one_shiftLeft]
  exact Nat.mod_eq_of_lt (Nat.pow_lt_pow_right (by decide) hlt)

theorem and_shiftLeft_ne_zero : words (i / 64) &&& (1 : UInt64) <<< (i % 64) ≠ 0 ↔ Bit words i := by
  rw [ne_eq, ← UInt64.toNat_inj, UInt64.toNat_and, toNat_one_shiftLeft, Nat.and_two_pow]
  unfold Bit
  cases Nat.testBit _ _ with
  | false => simp
  | true => simp

theorem word_ext (hdiv : i / 64 = j / 64) (hmod : i % 64 = j % 64) : i = j := by
  rw [← UInt64.toNat_inj, UInt64.toNat_div] at hdiv
  rw [← UInt64.toNat_inj, UInt64.toNat_mod] at hmod
  rw [← UInt64.toNat_inj]
  change i.toNat / 64 = j.toNat / 64 at hdiv
  change i.toNat % 64 = j.toNat % 64 at hmod
  omega

theorem bit_or_shiftLeft :
    Bit (fun w => if w = j / 64 then words w ||| (1 : UInt64) <<< (j % 64) else words w) i ↔
    i = j ∨ Bit words i := by
  unfold Bit
  dsimp only
  by_cases hdiv : i / 64 = j / 64
  · rw [if_pos hdiv, UInt64.toNat_or, Nat.testBit_or, toNat_one_shiftLeft, Nat.testBit_two_pow,
      Bool.or_eq_true, decide_eq_true_iff, or_comm]
    refine or_congr ⟨fun hmod => ?_, fun h => by rw [h]⟩ Iff.rfl
    exact word_ext hdiv (UInt64.toNat_inj.mp hmod.symm)
  · rw [if_neg hdiv]
    exact ⟨.inr, fun h => h.resolve_left fun heq => hdiv (by rw [heq])⟩

/-! ## The lowest bit -/

def ctz (v : UInt64) : Nat := ((List.range 64).find? (v.toNat.testBit ·)).getD 64

theorem ctz_spec {v : UInt64} (hv : v ≠ 0) :
    v.toNat.testBit (ctz v) = true ∧ ctz v < 64 ∧ ∀ i < ctz v, v.toNat.testBit i = false := by
  unfold ctz
  cases hfind : (List.range 64).find? (v.toNat.testBit ·) with
  | none =>
    refine absurd ?_ hv
    rw [List.find?_range_eq_none] at hfind
    rw [← UInt64.toNat_inj, UInt64.toNat_zero]
    refine Nat.eq_of_testBit_eq fun i => ?_
    rw [Nat.zero_testBit]
    rcases Nat.lt_or_ge i 64 with hi | hi
    · simpa using hfind i hi
    · exact Nat.testBit_lt_two_pow
        (Nat.lt_of_lt_of_le (toNat_lt_word v) (Nat.pow_le_pow_right (by decide) hi))
  | some i =>
    rw [List.find?_range_eq_some] at hfind
    obtain ⟨hbit, hmem, hbelow⟩ := hfind
    refine ⟨hbit, List.mem_range.mp hmem, fun j hj => ?_⟩
    simpa using hbelow j hj

/-! ## Numbers in a memory of bytes -/

def byteOf (v k : Nat) : UInt8 := UInt8.ofNat (v / 256 ^ k)

def number (m : Nat → UInt8) : Nat → Nat → Nat
  | 0, _ => 0
  | width + 1, a => (m a).toNat + 256 * number m width (a + 1)

def put (m : Nat → UInt8) (a width v : Nat) : Nat → UInt8 := fun x =>
  if a ≤ x ∧ x < a + width then byteOf v (x - a) else m x

section Number

variable {m m' : Nat → UInt8} {a b v width : Nat}

theorem toNat_byteOf (v k : Nat) : (byteOf v k).toNat = v / 256 ^ k % 256 := rfl

theorem byteOf_succ (v k : Nat) : byteOf v (k + 1) = byteOf (v / 256) k := by
  rw [byteOf, byteOf, Nat.pow_succ', Nat.div_div_eq_div_mul]

theorem toUInt8_shiftRight (v : UInt64) {k : Nat} (hk : k < 8) :
    (v >>> UInt64.ofNat (8 * k)).toUInt8 = byteOf v.toNat k := by
  have hshift : (UInt64.ofNat (8 * k)).toNat % 64 = 8 * k := by
    have hword : 8 * k < 2 ^ 64 := by omega
    rw [UInt64.toNat_ofNat_of_lt' hword]
    exact Nat.mod_eq_of_lt (by omega)
  rw [← UInt8.toNat_inj, UInt64.toNat_toUInt8, UInt64.toNat_shiftRight, hshift, toNat_byteOf,
    Nat.shiftRight_eq_div_pow, Nat.pow_mul]

theorem number_lt (m : Nat → UInt8) (width a : Nat) : number m width a < 256 ^ width := by
  induction width generalizing a with
  | zero => exact Nat.one_pos
  | succ width ih =>
    have hbyte := (m a).toNat_lt
    have hrest := ih (a + 1)
    rw [number, Nat.pow_succ]
    omega

theorem number_congr (h : ∀ x, a ≤ x → x < a + width → m' x = m x) :
    number m' width a = number m width a := by
  induction width generalizing a with
  | zero => rfl
  | succ _ ih =>
    rw [number, number, h a le_rfl (by omega), ih fun x h1 h2 => h x (by omega) (by omega)]

theorem number_eq_mod (h : ∀ k < width, m (a + k) = byteOf v k) :
    number m width a = v % 256 ^ width := by
  induction width generalizing a v with
  | zero => rw [number, Nat.pow_zero, Nat.mod_one]
  | succ width ih =>
    have hrest : number m width (a + 1) = v / 256 % 256 ^ width := by
      refine ih fun k hk => ?_
      rw [← byteOf_succ, Nat.add_assoc, Nat.add_comm 1 k]
      exact h (k + 1) (by omega)
    have hlow : (m a).toNat = v % 256 := by
      have h0 := h 0 (Nat.succ_pos _)
      rw [Nat.add_zero] at h0
      rw [h0, toNat_byteOf, Nat.pow_zero, Nat.div_one]
    rw [number, hlow, hrest, Nat.pow_succ', Nat.mod_mul]

theorem number_put (m : Nat → UInt8) (a width v : Nat) :
    number (put m a width v) width a = v % 256 ^ width := by
  refine number_eq_mod fun k hk => ?_
  rw [put, if_pos (by omega), Nat.add_sub_cancel_left]

theorem put_apart {x : Nat} (h : ¬ (a ≤ x ∧ x < a + width)) : put m a width v x = m x := if_neg h

end Number

/-! ## Records -/

structure Field where
  offset : Nat
  width : Nat
  value : Nat

def putFields (m : Nat → UInt8) (base : Nat) : List Field → Nat → UInt8
  | [] => m
  | f :: rest => putFields (put m (base + f.offset) f.width f.value) base rest

/-- Each field begins no sooner than the one before it ends, all of them between
`low` and `high`. -/
def Ascending (low high : Nat) : List Field → Prop
  | [] => low ≤ high
  | f :: rest => low ≤ f.offset ∧ Ascending (f.offset + f.width) high rest

instance decidableAscending (low high : Nat) :
    (fields : List Field) → Decidable (Ascending low high fields)
  | [] => inferInstanceAs (Decidable (low ≤ high))
  | f :: rest => @instDecidableAnd _ _ (inferInstanceAs (Decidable (low ≤ f.offset)))
      (decidableAscending (f.offset + f.width) high rest)

section Fields

variable {m : Nat → UInt8} {base low high : Nat} {fields : List Field} {f : Field}

section

variable (h : Ascending low high fields)
include h

theorem Ascending.le : low ≤ high := by
  induction fields generalizing low with
  | nil => exact h
  | cons f _ ih =>
    have := ih h.2
    have := h.1
    omega

theorem Ascending.mem (hf : f ∈ fields) : low ≤ f.offset ∧ f.offset + f.width ≤ high := by
  induction fields generalizing low with
  | nil => cases hf
  | cons g _ ih =>
    rcases List.mem_cons.mp hf with rfl | hf
    · exact ⟨h.1, h.2.le⟩
    · have := ih h.2 hf
      have := h.1
      omega

theorem putFields_apart {x : Nat} (hx : x < base + low ∨ base + high ≤ x) :
    putFields m base fields x = m x := by
  induction fields generalizing m low with
  | nil => rfl
  | cons f _ ih =>
    have hle := h.2.le
    have := h.1
    rw [putFields, ih h.2 (by omega)]
    exact put_apart (by omega)

end

def Reads (m : Nat → UInt8) (base : Nat) (fields : List Field) : Prop :=
  ∀ f ∈ fields, number m f.width (base + f.offset) = f.value % 256 ^ f.width

theorem Reads.congr {m' : Nat → UInt8} (hr : Reads m base fields) (h : Ascending low high fields)
    (hkeep : ∀ x, base + low ≤ x → x < base + high → m' x = m x) : Reads m' base fields := by
  intro f hf
  have hin := h.mem hf
  rw [number_congr fun x h1 h2 => hkeep x (by omega) (by omega), hr f hf]

theorem reads_putFields (h : Ascending low high fields) (m : Nat → UInt8) (base : Nat) :
    Reads (putFields m base fields) base fields := by
  induction fields generalizing m low with
  | nil => exact fun f hf => nomatch hf
  | cons g _ ih =>
    intro f hf
    rcases List.mem_cons.mp hf with rfl | hf
    · rw [putFields, number_congr fun x _ hx => putFields_apart h.2 (by omega), number_put]
    · exact ih h.2 _ f hf

end Fields

end Fathom.Lib
