import Fathom.Runtime.Console

/-!
# No frame leaves the mapping

The screen is drawn from a file the guest writes. Its header is checked once, and every
frame from then on reads rows that were checked; only the check itself can trap.
-/

namespace Fathom

namespace GuestDisplay

open Lib

theorem int_eq {n : Int} (hlow : 0 ≤ n) (hhigh : n < 0x8000000000000000) : int n = some n :=
  if_pos ⟨Int.le_trans (by decide) hlow, hhigh⟩

variable (d : GuestDisplay) (mem : Nat → UInt8)

/-- The rows are bytes of the mapping, and their number is an `Int`. -/
structure Mapped : Prop where
  low : 0 ≤ d.pixels
  size : 0 ≤ d.bytesPerRow * d.height
  high : d.pixels + d.bytesPerRow * d.height ≤ d.mappedLength
  fits : d.bytesPerRow * d.height < 0x8000000000000000

variable {d}

theorem Mapped.sampleFrom {count index : Int} (hd : d.Mapped) (hindex : 0 ≤ index)
    (hcount : count * 4 ≤ d.bytesPerRow * d.height) (checksum : UInt64) :
    (d.sampleFrom mem count index checksum).isSome := by
  obtain ⟨hlow, -, hhigh, hfits⟩ := hd
  fun_induction GuestDisplay.sampleFrom d mem count index checksum with
  | case1 index checksum hlt stride start _ _ _ _ ih => exact ih (by omega)
  | case2 index checksum hlt stride start hnone =>
    exact (hnone _ _ (if_pos ⟨by omega, by omega⟩) (if_pos ⟨by omega, by omega⟩)).elim
  | case3 => rfl

theorem Mapped.refresh (hd : d.Mapped) : ∃ d', d.refresh mem = some d' ∧ d'.Mapped := by
  have hint := int_eq hd.size hd.fits
  have hcopy : inside d.mappedLength d.pixels (d.bytesPerRow * d.height) = some () :=
    if_pos ⟨hd.low, hd.high⟩
  have hsample : (d.sample mem).isSome := by
    simp only [sample, hint, Option.bind_eq_bind, Option.bind_some]
    split
    · exact hd.sampleFrom mem (by omega) (by omega) _
    · rfl
  obtain ⟨checksum, hchecksum⟩ := Option.isSome_iff_exists.mp hsample
  simp only [GuestDisplay.refresh, hchecksum, hint, hcopy, Option.bind_eq_bind, Option.bind_some]
  split
  · exact ⟨d, rfl, hd⟩
  · exact ⟨_, rfl, hd.low, hd.size, hd.high, hd.fits⟩

theorem Mapped.frames (hd : d.Mapped) (later : List (Nat → UInt8)) :
    ∃ d', later.foldlM GuestDisplay.refresh d = some d' := by
  induction later generalizing d with
  | nil => exact ⟨d, rfl⟩
  | cons mem later ih =>
    obtain ⟨d', hrefresh, hd'⟩ := hd.refresh mem
    rw [List.foldlM_cons, hrefresh]
    exact ih hd'

theorem init_spec {length : Int} (hlength : 100 < length) : ∃ o, Header.init length mem = some o ∧
    ∀ header ∈ o, 0 ≤ header.pixelOffset ∧ 0 ≤ header.bytesPerRow * header.height := by
  obtain ⟨f, hf, hlt⟩ : ∃ f : Nat → Int,
      (∀ i < 25, field length mem i = some (f i)) ∧ ∀ i, 0 ≤ f i ∧ f i < 0x100000000 := by
    refine ⟨fun i => number (fun j => mem (i * 4 + (3 - j))) 4 0, fun i hi => ?_,
      fun i => ⟨Int.natCast_nonneg _, Int.ofNat_lt.mpr (number_lt _ 4 0)⟩⟩
    rw [field, inside, if_pos ⟨by omega, by omega⟩]
    rfl
  have hsize := hlt 0
  have hwidth := hlt 4
  have hcolors := hlt 19
  unfold Header.init
  simp (disch := omega) only [hf, int_eq, Option.bind_eq_bind, Option.bind_some]
  split
  · exact ⟨none, rfl, fun _ h => nomatch h⟩
  split
  · exact ⟨none, rfl, fun _ h => nomatch h⟩
  · refine ⟨_, rfl, ?_⟩
    rintro header ⟨⟩
    exact ⟨by dsimp only; omega, Int.mul_nonneg (hlt 12).1 (hlt 5).1⟩

/-- Attaching to a file, and the frames of what it holds from then on. -/
def run (length : Int) (mem : Nat → UInt8) (later : List (Nat → UInt8)) : Option Unit := do
  let some d ← GuestDisplay.map length mem | return
  let _ ← later.foldlM GuestDisplay.refresh d

/-- The only trap is in the check itself: the end of the rows is no `Int`. -/
theorem run_traps_iff (length : Int) (mem : Nat → UInt8) (later : List (Nat → UInt8)) :
    run length mem later = none ↔ 100 < length ∧ ∃ header,
    Header.init length mem = some (some header) ∧
    0x8000000000000000 ≤ header.pixelOffset + header.bytesPerRow * header.height := by
  by_cases hlength : 100 < length
  · obtain ⟨o, ho, hpos⟩ := init_spec mem hlength
    cases o with
    | none => simp [run, GuestDisplay.map, hlength, ho]
    | some header =>
      obtain ⟨hlow, hsize⟩ := hpos header rfl
      simp only [run, GuestDisplay.map, ho, hlength, not_true_eq_false, if_false, true_and,
        Option.bind_eq_bind, Option.bind_some, Option.pure_def, Option.some.injEq, exists_eq_left']
      by_cases hend : header.pixelOffset + header.bytesPerRow * header.height < 0x8000000000000000
      · refine iff_of_false ?_ (Int.not_le.mpr hend)
        rw [int_eq hsize (by omega), Option.bind_some, int_eq (by omega) hend, Option.bind_some]
        split
        · simp
        next hfits =>
          have hframe : header.bytesPerRow * header.height < 0x8000000000000000 := by omega
          obtain ⟨d', hd'⟩ := Mapped.frames (d := ⟨length, _, _, _, 0⟩)
            ⟨hlow, hsize, not_not.mp hfits, hframe⟩ later
          simp [hd']
      · refine iff_of_true ?_ (Int.not_lt.mp hend)
        rw [int]
        split
        · rw [Option.bind_some, int, if_neg fun h => hend h.2]
          rfl
        · rfl
  · simp [run, GuestDisplay.map, hlength]

/-- A header without colours, and the most and the longest rows there are. -/
def largestFrame (start : Nat) : UInt8 :=
  match [(3, 100), (11, 2), (15, 24), (19, 1), (47, 32)].lookup start with
  | some byte => byte
  | none => if start / 4 = 5 ∨ start / 4 = 12 then 0xFF else 0

theorem largest_frame_traps : run 101 largestFrame [] = none := by decide

end GuestDisplay

end Fathom
