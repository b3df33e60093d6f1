import Fathom.Proofs.StackWrites

/-!
# What a program finds on its stack

`BuildInitialStack` writes a stack from the top down, and the program it is for reads it
from `rsp` up: a count, pointers to its arguments, a null, pointers to its environment,
a null, and the auxiliary vector.
-/

namespace Fathom

open Lib Spanned

/-! ## What a reader finds -/

def Holds (m : Nat → UInt8) (a : Nat) (data : List UInt8) : Prop :=
  ∀ k < data.length, m (a + k) = data.getD k 0

structure IsCString (m : Nat → UInt8) (a : Nat) (value : List UInt8) : Prop where
  bytes : Holds m a (value ++ [0])
  noNul : 0 ∉ value

def readWords (m : Nat → UInt8) (width : Nat) : Nat → Nat → List Nat
  | 0, _ => []
  | n + 1, a => number m width a :: readWords m width n (a + width)

structure StackPointers where
  arguments : List UInt64
  environment : List UInt64
  platform : UInt64
  random : UInt64
  execfn : UInt64

def StackPointers.all (p : StackPointers) : List UInt64 :=
  p.platform :: p.random :: p.execfn :: (p.environment ++ p.arguments)

/-- What is read from `rsp` up. The words are the guest's, the places `p` the
host's, and no pointer is cut off by the width of a word. -/
structure ProgramSees (m : Nat → UInt8) (guestBase : UInt64) (is32bit : Bool)
    (image : LoadedImage) (start : StartArguments) (interpreterBase : UInt64) (rsp : Nat)
    (p : StackPointers) : Prop where
  aligned : 16 ∣ rsp
  words : readWords m (stackWordSize is32bit).toNat (stackWordCount start) rsp =
    [start.argv.length] ++ p.arguments.map (fun a => (a - guestBase).toNat) ++ [0] ++
      p.environment.map (fun a => (a - guestBase).toNat) ++ [0] ++
      (auxv image interpreterBase (p.platform - guestBase) (p.random - guestBase)
        (p.execfn - guestBase)).flatMap fun (key, value) =>
          [key.toNat, value.toNat % 256 ^ (stackWordSize is32bit).toNat]
  whole : ∀ a ∈ p.all, (a - guestBase).toNat < 256 ^ (stackWordSize is32bit).toNat
  arguments : List.Forall₂ (fun a value => IsCString m a.toNat value) p.arguments start.argv
  environment : List.Forall₂ (fun a value => IsCString m a.toNat value) p.environment start.envp
  platform : IsCString m p.platform.toNat (platformName is32bit)
  random : Holds m p.random.toNat start.random
  execfn : IsCString m p.execfn.toNat start.execPath

/-! ## Strings stay -/

theorem Holds.congr {m m' : Nat → UInt8} {a : Nat} {data : List UInt8} (h : Holds m a data)
    (hkeep : ∀ x, a ≤ x → m' x = m x) : Holds m' a data := by
  intro k hk
  rw [hkeep _ (Nat.le_add_right a k), h k hk]

theorem pushBytes_holds (h : Host) (cursor : UInt64) {data : List UInt8}
    (hlen : data.length < 2 ^ 64) :
    Holds (pushBytes h cursor data).2.mem (pushAt cursor data.length).toNat data := by
  intro k hk
  have hof : (UInt64.ofNat data.length).toNat = data.length := UInt64.toNat_ofNat_of_lt' hlen
  change (h.store (pushAt cursor data.length) _ _).mem _ = _
  rw [Host.store_mem, if_pos (by omega)]
  exact congrArg (data.getD · 0) (Nat.add_sub_cancel_left _ k)

section Pushes

variable {cursor : UInt64} {l : List (List UInt8)}

section

variable (hc : 16 ∣ cursor.toNat)
include hc

section

variable (hfit : depth l ≤ cursor.toNat)
include hfit

theorem storeAll_kept (h : Host) {x : Nat} (hx : cursor.toNat ≤ x) :
    (storeAll cursor l h).mem x = h.mem x := by
  refine (storeAll_storesTo cursor l).kept (fun hin => ?_) h
  have := (pushed_fits hc hfit).2 x hin
  omega

theorem mem_addresses {a : UInt64} (ha : a ∈ addresses cursor l) :
    cursor.toNat - depth l ≤ a.toNat ∧ a.toNat ≤ cursor.toNat := by
  induction l generalizing cursor with
  | nil => cases ha
  | cons data _ ih =>
    rw [depth_cons] at hfit ⊢
    have hat := toNat_pushAt_aligned (n := data.length) hc (by omega)
    rcases List.mem_cons.mp ha with rfl | ha
    · omega
    · have hnext : 16 ∣ (pushAt cursor data.length).toNat := by
        rw [hat]
        exact Nat.dvd_sub hc (dvd_roundUp 16 _)
      have := ih hnext (by omega) ha
      omega

theorem storeAll_holds (h : Host) :
    List.Forall₂ (fun a data => Holds (storeAll cursor l h).mem a.toNat data)
      (addresses cursor l) l := by
  induction l generalizing cursor h with
  | nil => exact List.Forall₂.nil
  | cons data _ ih =>
    rw [depth_cons] at hfit
    have hlen := le_roundUp (p := 16) (by decide) data.length
    have hat := toNat_pushAt_aligned (n := data.length) hc (by omega)
    have hnext : 16 ∣ (pushAt cursor data.length).toNat := by
      rw [hat]
      exact Nat.dvd_sub hc (dvd_roundUp 16 _)
    have hword := toNat_lt_word cursor
    refine List.Forall₂.cons ?_ (ih hnext (by omega) _)
    exact (pushBytes_holds h cursor (by omega)).congr fun x hx =>
      storeAll_kept hnext (by omega) _ hx

end

end

end Pushes

theorem forall₂_terminated {R : UInt64 → List UInt8 → Prop} {as : List UInt64}
    {values : List (List UInt8)} (h : List.Forall₂ R as (terminated values)) :
    List.Forall₂ (fun a value => R a (value ++ [0])) as.reverse values := by
  have hrev := List.forall₂_reverse_iff.mpr h
  rw [terminated, List.reverse_reverse, List.forall₂_map_right_iff] at hrev
  exact hrev

/-! ## Words are read back -/

theorem readWords_putWords {wordSize word : UInt64} {words : List UInt64} (h : Host)
    (hpos : 0 < wordSize.toNat) (hsize : wordSize.toNat ≤ 8)
    (hfit : word.toNat + words.length * wordSize.toNat < 2 ^ 64) :
    readWords (putWords wordSize words word h).mem wordSize.toNat words.length word.toNat =
      words.map fun v => v.toNat % 256 ^ wordSize.toNat := by
  induction words generalizing word h with
  | nil => rfl
  | cons value rest ih =>
    rw [List.length_cons, Nat.succ_mul] at hfit
    have hnext : (word + wordSize).toNat = word.toNat + wordSize.toNat := toNat_add_of_lt (by omega)
    have hrest : readWords (putWords wordSize (value :: rest) word h).mem wordSize.toNat
        rest.length (word + wordSize).toNat =
          rest.map fun v => v.toNat % 256 ^ wordSize.toNat := ih _ (by omega)
    have hfirst : number (putWords wordSize (value :: rest) word h).mem wordSize.toNat
        word.toNat = value.toNat % 256 ^ wordSize.toNat := by
      refine number_eq_mod fun k hk => ?_
      -- The words above it are stored later, and elsewhere.
      rw [putWords, (putWords_storesTo wordSize rest (word + wordSize)).kept, Host.store_mem,
        if_pos (by omega), Nat.add_sub_cancel_left, toUInt8_shiftRight value (by omega)]
      intro hin
      have := wordSpans_within (by omega) hpos hin
      omega
    rw [List.length_cons, readWords, hfirst, ← hnext]
    exact congrArg _ hrest

/-! ## The whole stack -/

structure StartArguments.NoNul (start : StartArguments) : Prop where
  argv : ∀ value ∈ start.argv, 0 ∉ value
  envp : ∀ value ∈ start.envp, 0 ∉ value
  execPath : 0 ∉ start.execPath

theorem platformName_noNul (is32bit : Bool) : 0 ∉ platformName is32bit := by
  cases is32bit with
  | false => decide
  | true => decide

def stackPointers (is32bit : Bool) (start : StartArguments) (top : UInt64) : StackPointers :=
  let random := pushAt top start.random.length
  let platform := pushAt random (platformName is32bit ++ [0]).length
  let execfn := pushAt platform (start.execPath ++ [0]).length
  { arguments := (addresses (pushed execfn (terminated start.envp)) (terminated start.argv)).reverse
    environment := (addresses execfn (terminated start.envp)).reverse
    platform, random, execfn }

namespace StackRoom

variable {is32bit : Bool} {start : StartArguments} {base stackSize : UInt64}

theorem random (hr : StackRoom is32bit start base stackSize) :
    16 ∣ (pushAt (base + stackSize) start.random.length).toNat ∧
    (pushAt (base + stackSize) start.random.length).toNat < base.toNat + stackSize.toNat ∧
    base.toNat + depth (stringOrder is32bit start) ≤
      (pushAt (base + stackSize) start.random.length).toNat := by
  have hfit := hr.strings
  have hin : depth (pushOrder is32bit start) ≤ roundDown 16 stackSize.toNat :=
    (le_roundDown_iff (by decide) (dvd_depth _)).mpr hfit
  have hdown := roundDown_le 16 stackSize.toNat
  rw [depth_pushOrder hr.proper] at hfit hin
  rw [toNat_firstPush hr.proper hr.aligned hr.top (by omega)]
  refine ⟨Nat.dvd_add hr.aligned (Nat.dvd_sub (dvd_roundDown 16 _) (Nat.dvd_refl 16)), ?_, ?_⟩
  · omega
  · omega

theorem addresses_stringOrder (is32bit : Bool) (start : StartArguments) (top : UInt64) :
    addresses (pushAt top start.random.length) (stringOrder is32bit start) =
      (stackPointers is32bit start top).platform :: (stackPointers is32bit start top).execfn ::
        ((stackPointers is32bit start top).environment.reverse ++
          (stackPointers is32bit start top).arguments.reverse) := by
  simp [stringOrder, addresses, addresses_append, stackPointers]

section

variable (hr : StackRoom is32bit start base stackSize)
include hr

variable {a : UInt64}

theorem mem_all (ha : a ∈ (stackPointers is32bit start (base + stackSize)).all) :
    base.toNat ≤ a.toNat ∧ a.toNat < base.toNat + stackSize.toNat := by
  obtain ⟨hdvd, hlt, hge⟩ := hr.random
  have hrest : a = pushAt (base + stackSize) start.random.length ∨
      a ∈ addresses (pushAt (base + stackSize) start.random.length)
        (stringOrder is32bit start) := by
    rw [addresses_stringOrder]
    simp only [StackPointers.all, List.mem_cons, List.mem_append] at ha
    simp only [List.mem_cons, List.mem_append, List.mem_reverse]
    rcases ha with ha | ha | ha | ha | ha
    · exact .inr (.inl ha)
    · exact .inl ha
    · exact .inr (.inr (.inl ha))
    · exact .inr (.inr (.inr (.inl ha)))
    · exact .inr (.inr (.inr (.inr ha)))
  rcases hrest with rfl | hin
  · omega
  · have := mem_addresses hdvd (by omega) hin
    omega

section

variable (h : Host) {m : Nat → UInt8}
  (hkeep : ∀ x, (pushed (base + stackSize) (pushOrder is32bit start)).toNat ≤ x →
    m x = (storeAll (base + stackSize) (pushOrder is32bit start) h).mem x)
include hkeep

theorem holds : Holds m (pushAt (base + stackSize) start.random.length).toNat start.random ∧
      List.Forall₂ (fun a data => Holds m a.toNat data)
        (addresses (pushAt (base + stackSize) start.random.length) (stringOrder is32bit start))
        (stringOrder is32bit start) := by
  obtain ⟨hdvd, -, hge⟩ := hr.random
  have hend : (pushed (base + stackSize) (pushOrder is32bit start)).toNat =
      (pushAt (base + stackSize) start.random.length).toNat - depth (stringOrder is32bit start) :=
    (pushed_fits (l := stringOrder is32bit start) hdvd (by omega)).1
  rw [hend] at hkeep
  have hlen : start.random.length < 2 ^ 64 := by
    rw [hr.proper.random]
    decide
  constructor
  · refine (pushBytes_holds h (base + stackSize) hlen).congr fun x hx => ?_
    rw [hkeep x (by omega)]
    exact storeAll_kept (l := stringOrder is32bit start) hdvd (by omega) _ hx
  · have hall := storeAll_holds (l := stringOrder is32bit start) hdvd (by omega)
      (pushBytes h (base + stackSize) start.random).2
    have habove := fun a ha => (mem_addresses (a := a) (l := stringOrder is32bit start) hdvd
      (by omega) ha).1
    refine ((List.forall₂_and_left _ _).mpr ⟨habove, hall⟩).imp fun a data hand => ?_
    exact hand.2.congr fun x hx => hkeep x (Nat.le_trans hand.1 hx)

theorem texts (hn : start.NoNul) :
    let p := stackPointers is32bit start (base + stackSize)
    Holds m p.random.toNat start.random ∧ IsCString m p.platform.toNat (platformName is32bit) ∧
      IsCString m p.execfn.toNat start.execPath ∧
      List.Forall₂ (fun a value => IsCString m a.toNat value) p.environment start.envp ∧
      List.Forall₂ (fun a value => IsCString m a.toNat value) p.arguments start.argv := by
  intro p
  obtain ⟨hrandom, hall⟩ := hr.holds h hkeep
  rw [addresses_stringOrder, stringOrder, List.forall₂_cons, List.forall₂_cons] at hall
  obtain ⟨hplatform, hexecfn, hrows⟩ := hall
  have hlen : (terminated start.envp).length = p.environment.reverse.length := by
    simp [p, stackPointers, length_addresses]
  have henv := List.forall₂_take_append _ _ _ hrows
  have harg := List.forall₂_drop_append _ _ _ hrows
  rw [hlen, List.take_left] at henv
  rw [hlen, List.drop_left] at harg
  have hcstring : ∀ {as : List UInt64} {values : List (List UInt8)}, (∀ value ∈ values, 0 ∉ value) →
      List.Forall₂ (fun a data => Holds m a.toNat data) as.reverse (terminated values) →
      List.Forall₂ (fun a value => IsCString m a.toNat value) as values := by
    intro as values hno hrow
    have hrow := forall₂_terminated hrow
    rw [List.reverse_reverse] at hrow
    refine List.Forall₂.flip (((List.forall₂_and_left _ _).mpr ⟨hno, hrow.flip⟩).imp ?_)
    exact fun value a hand => ⟨hand.2, hand.1⟩
  exact ⟨hrandom, ⟨hplatform, platformName_noNul is32bit⟩, ⟨hexecfn, hn.execPath⟩,
    hcstring hn.envp henv, hcstring hn.argv harg⟩

end

theorem whole {guestBase : UInt64} (hlow : is32bit = true → guestBase.toNat ≤ base.toNat ∧
      base.toNat + stackSize.toNat ≤ guestBase.toNat + 2 ^ 32)
    (ha : a ∈ (stackPointers is32bit start (base + stackSize)).all) :
    (a - guestBase).toNat < 256 ^ (stackWordSize is32bit).toNat := by
  cases is32bit with
  | false => exact toNat_lt_word _
  | true =>
    obtain ⟨hge, hle⟩ := hlow rfl
    have := hr.mem_all ha
    rw [toNat_sub_of_le (by omega)]
    change _ < 2 ^ 32
    omega

theorem length_argv (hlow : is32bit = true → stackSize.toNat ≤ 2 ^ 32) :
    start.argv.length < 256 ^ (stackWordSize is32bit).toNat := by
  have hcount : 16 * (stringOrder is32bit start).length ≤ _ :=
    sixteen_mul_length_le (mem_stringOrder hr.proper)
  have hlen : (stringOrder is32bit start).length =
      start.envp.length + start.argv.length + 1 + 1 := by
    simp [stringOrder, length_terminated]
  have hfit := hr.strings
  rw [depth_pushOrder hr.proper] at hfit
  have hword := toNat_lt_word stackSize
  cases is32bit with
  | false =>
    change _ < 2 ^ 64
    omega
  | true =>
    have := hlow rfl
    change _ < 2 ^ 32
    omega

theorem pos_of_mem_all (ha : a ∈ (stackPointers is32bit start (base + stackSize)).all) : a ≠ 0 := by
  intro hzero
  have hge := (hr.mem_all ha).1
  have hpos := hr.pos
  rw [hzero, UInt64.toNat_zero] at hge
  omega

end

end StackRoom

variable {interpreterBase platform random execfn : UInt64}

theorem auxv_converted (guestBase : UInt64) (image : LoadedImage) (hp : platform ≠ 0)
    (hr : random ≠ 0) (he : execfn ≠ 0) :
    ((auxv image interpreterBase platform random execfn).flatMap fun (key, value) =>
      [key, if (key == kAtRandom || key == kAtPlatform || key == kAtExecfn) && value != 0
        then value - guestBase else value]) =
      (auxv image interpreterBase (platform - guestBase) (random - guestBase)
        (execfn - guestBase)).flatMap fun (key, value) => [key, value] := by
  simp [auxv, kAtPhdr, kAtPhent, kAtPhnum, kAtPagesz, kAtBase, kAtEntry, kAtUid,
    kAtEuid, kAtGid, kAtEgid, kAtPlatform, kAtClktck, kAtRandom, kAtExecfn, hp, hr, he]

theorem auxv_key_lt {image : LoadedImage} {pair : UInt64 × UInt64}
    (hmem : pair ∈ auxv image interpreterBase platform random execfn) : pair.1.toNat < 256 := by
  have hkeys : (auxv image interpreterBase platform random execfn).map (·.1) =
      [3, 4, 5, 6, 7, 8, 9, 11, 12, 13, 14, 15, 16, 17, 23, 25, 26, 31, 0] := rfl
  have hall : ∀ key ∈ ([3, 4, 5, 6, 7, 8, 9, 11, 12, 13, 14, 15, 16, 17, 23, 25, 26, 31, 0] :
      List UInt64), key.toNat < 256 := by simp
  exact hall _ (hkeys ▸ List.mem_map_of_mem hmem)

theorem wordModulus_bounds (is32bit : Bool) :
    256 < 256 ^ (stackWordSize is32bit).toNat ∧ 256 ^ (stackWordSize is32bit).toNat ≤ 2 ^ 64 := by
  cases is32bit with
  | false => decide
  | true => decide

namespace StackRoom

variable {is32bit : Bool} {start : StartArguments} {base stackSize guestBase : UInt64}

section

variable (hr : StackRoom is32bit start base stackSize)
include hr

theorem words_seen (image : LoadedImage) (interpreterBase : UInt64)
    (hlow : is32bit = true → guestBase.toNat ≤ base.toNat ∧
      base.toNat + stackSize.toNat ≤ guestBase.toNat + 2 ^ 32) :
    let p := stackPointers is32bit start (base + stackSize)
    let cut := fun v : UInt64 => v.toNat % 256 ^ (stackWordSize is32bit).toNat
    (stackWords guestBase is32bit image start interpreterBase (base + stackSize)).map cut =
      [start.argv.length] ++ p.arguments.map (fun a => (a - guestBase).toNat) ++ [0] ++
        p.environment.map (fun a => (a - guestBase).toNat) ++ [0] ++
        (auxv image interpreterBase (p.platform - guestBase) (p.random - guestBase)
          (p.execfn - guestBase)).flatMap fun (key, value) => [key.toNat, cut value] := by
  intro p cut
  have hcount : cut (UInt64.ofNat p.arguments.length) = start.argv.length := by
    have hlen : p.arguments.length = start.argv.length := by
      simp [p, stackPointers, length_addresses, length_terminated]
    have hlt := hr.length_argv fun h32 => by
      have := hlow h32
      omega
    have hword : start.argv.length < 2 ^ 64 := hlt.trans_le (wordModulus_bounds is32bit).2
    simp only [cut, hlen, UInt64.toNat_ofNat_of_lt' hword, Nat.mod_eq_of_lt hlt]
  have hpointers : ∀ l : List UInt64, (∀ a ∈ l, a ∈ p.all) →
      (l.map (· - guestBase)).map cut = l.map fun a => (a - guestBase).toNat := by
    intro l hl
    rw [List.map_map]
    exact List.map_congr_left fun a ha => Nat.mod_eq_of_lt (hr.whole hlow (hl a ha))
  have hne : ∀ a ∈ p.all, a ≠ 0 := fun a ha => hr.pos_of_mem_all ha
  have hvector : ∀ l : List (UInt64 × UInt64), (∀ pair ∈ l, pair.1.toNat < 256) →
      (l.flatMap fun (key, value) => [key, value]).map cut =
        l.flatMap fun (key, value) => [key.toNat, cut value] := by
    intro l hl
    rw [List.map_flatMap]
    refine List.flatMap_congr fun pair hpair => ?_
    have hkey : cut pair.1 = pair.1.toNat :=
      Nat.mod_eq_of_lt (Nat.lt_trans (hl pair hpair) (wordModulus_bounds is32bit).1)
    simp [hkey]
  have hwords : stackWords guestBase is32bit image start interpreterBase (base + stackSize) =
      [UInt64.ofNat p.arguments.length] ++ p.arguments.map (· - guestBase) ++ [0] ++
        p.environment.map (· - guestBase) ++ [0] ++
        (auxv image interpreterBase (p.platform - guestBase) (p.random - guestBase)
          (p.execfn - guestBase)).flatMap fun (key, value) => [key, value] := by
    rw [← auxv_converted guestBase image (hne _ (by simp [StackPointers.all]))
      (hne _ (by simp [StackPointers.all])) (hne _ (by simp [StackPointers.all]))]
    rfl
  rw [hwords]
  simp only [List.map_append, List.map_cons, hcount]
  rw [hpointers _ fun a ha => by simp [StackPointers.all, ha],
    hpointers _ fun a ha => by simp [StackPointers.all, ha], hvector _ fun _ => auxv_key_lt]
  simp [cut]

theorem putWords_kept (guestBase : UInt64) (image : LoadedImage) (interpreterBase : UInt64)
    (h : Host) {x : Nat} (hx : (pushed (base + stackSize) (pushOrder is32bit start)).toNat ≤ x) :
    (putWords (stackWordSize is32bit)
        (stackWords guestBase is32bit image start interpreterBase (base + stackSize))
        (stackPointer is32bit start (base + stackSize)) h).mem x = h.mem x := by
  have hpos : 0 < (stackWordSize is32bit).toNat := by
    rcases stackWordSize_cases is32bit with hsize | hsize <;> omega
  have hfits := hr.pointer_fits
  have hend := (pushOrder_fits hr.proper hr.aligned hr.top hr.strings).1
  have hdown := roundDown_le 16 stackSize.toNat
  have htop := hr.top
  refine (putWords_storesTo _ _ _).kept (fun hin => ?_) h
  rw [length_stackWords] at hin
  have := wordSpans_within (by omega) hpos hin
  omega

theorem sees (hn : start.NoNul) (h : Host) (image : LoadedImage) (interpreterBase : UInt64)
    (hlow : is32bit = true → guestBase.toNat ≤ base.toNat ∧
      base.toNat + stackSize.toNat ≤ guestBase.toNat + 2 ^ 32) :
    let rsp := stackPointer is32bit start (base + stackSize)
    ProgramSees (putWords (stackWordSize is32bit)
        (stackWords guestBase is32bit image start interpreterBase (base + stackSize)) rsp
        (storeAll (base + stackSize) (pushOrder is32bit start) h)).mem
      guestBase is32bit image start interpreterBase rsp.toNat
      (stackPointers is32bit start (base + stackSize)) := by
  intro rsp
  have hpos : 0 < (stackWordSize is32bit).toNat ∧ (stackWordSize is32bit).toNat ≤ 8 := by
    rcases stackWordSize_cases is32bit with hsize | hsize <;> omega
  have hfits : rsp.toNat + _ ≤ _ :=
    hr.pointer_fits
  have hdown := roundDown_le 16 stackSize.toNat
  have htop := hr.top
  have hroom : rsp.toNat + stackWordCount start * (stackWordSize is32bit).toNat < 2 ^ 64 := by omega
  have hlen := length_stackWords guestBase is32bit image start interpreterBase (base + stackSize)
  obtain ⟨hrandom, hplatform, hexecfn, henv, harg⟩ := hr.texts h
    (fun x hx => hr.putWords_kept guestBase image interpreterBase _ hx) hn
  refine ⟨?_, ?_, fun a ha => hr.whole hlow ha, harg, henv, hplatform, hrandom, hexecfn⟩
  · rw [show rsp.toNat = _ from toNat_mask16 _]
    exact dvd_roundDown _ _
  · rw [← hr.words_seen image interpreterBase hlow, ← hlen]
    exact readWords_putWords _ hpos.1 hpos.2 (by rw [hlen]; exact hroom)

end

end StackRoom

/-! ## BuildInitialStack -/

namespace GuestAddressSpace

variable {s : GuestAddressSpace} {h : Host} {guestBase : UInt64} {is32bit : Bool}
  {image : LoadedImage} {start : StartArguments} {interpreterBase stackSize : UInt64}

/-- What `BuildInitialStack` leaves when it succeeds and has kept to the stack:
from `rsp` up, the program reads its arguments, its environment and the
auxiliary vector. The host address of `rsp` is a multiple of 16, and the guest's own with it
if `guest_base` is one. -/
theorem buildInitialStack_layout (hs : s.ListInv) (hbase : 16 ∣ guestBase.toNat)
    (hp : start.Proper) (hn : start.NoNul)
    (hc : s.StackConfined h guestBase is32bit image start interpreterBase stackSize)
    {stack : StackImage}
    (hret : (s.buildInitialStack h guestBase is32bit image start interpreterBase stackSize).ret =
      .ok stack) (hlow : is32bit = true → guestBase.toNat ≤ stack.stackBase.toNat ∧
      stack.stackBase.toNat + stack.stackSize.toNat ≤ guestBase.toNat + 2 ^ 32) :
    16 ∣ stack.rsp.toNat ∧ ∃ p, ProgramSees
        (s.buildInitialStack h guestBase is32bit image start interpreterBase stackSize).host.mem
        guestBase is32bit image start interpreterBase (stack.rsp + guestBase).toNat p := by
  rw [buildInitialStack_eq] at hret ⊢
  by_cases hzero : (s.reserveStack h guestBase is32bit stackSize).ret = 0
  · rw [if_pos hzero] at hret
    cases hret
  rw [if_neg hzero] at hret ⊢
  rw [fillStack_eq] at hret ⊢
  dsimp only at hret ⊢
  split at hret
  · cases hret
  next hplaced =>
    rw [if_neg hplaced]
    cases hret
    have hsees := (hc.room hs hp hzero).2.sees hn
      (s.reserveStack h guestBase is32bit stackSize).host
      image interpreterBase hlow
    constructor
    · have hdvd := hsees.aligned
      rw [UInt64.toNat_sub]
      omega
    · rw [UInt64.sub_add_cancel]
      exact ⟨_, hsees⟩

def echo : StartArguments :=
  ⟨[[0x65, 0x63, 0x68, 0x6f], [0x68, 0x69]], [[0x41, 0x3d, 0x31]], [0x2f, 0x65, 0x63, 0x68, 0x6f],
    List.replicate 16 7⟩

theorem proper_echo : echo.Proper := by
  refine ⟨by decide, by decide, ?_, ?_⟩
  · decide
  · decide

theorem buildInitialStack_layout_echo :
    ((new Geometry.oneMegabyte).buildInitialStack Host.fresh 0x100000000 true
        ⟨0, 0, 0, 0, 0, 0, 0⟩ echo 0 0x4000).ret = .ok ⟨0x100014000, 0x4000, 0x17ef0⟩ ∧
      16 ∣ (0x17ef0 : UInt64).toNat ∧
      ∃ p, ProgramSees ((new Geometry.oneMegabyte).buildInitialStack Host.fresh 0x100000000 true
          ⟨0, 0, 0, 0, 0, 0, 0⟩ echo 0 0x4000).host.mem 0x100000000 true
        ⟨0, 0, 0, 0, 0, 0, 0⟩ echo 0 (0x17ef0 + 0x100000000 : UInt64).toNat p := by
  have hret : ((new Geometry.oneMegabyte).buildInitialStack Host.fresh 0x100000000 true
      ⟨0, 0, 0, 0, 0, 0, 0⟩ echo 0 0x4000).ret = .ok ⟨0x100014000, 0x4000, 0x17ef0⟩ := by decide
  have hn : echo.NoNul := ⟨by decide, by decide, by decide⟩
  have hc : (new Geometry.oneMegabyte).StackConfined Host.fresh 0x100000000 true
      ⟨0, 0, 0, 0, 0, 0, 0⟩ echo 0 0x4000 :=
    stackConfined_of_fits (listInv_new _) proper_echo (by decide)
      ⟨by decide, fun hwrap => absurd hwrap.1 (by decide)⟩ (by decide) (by decide)
  exact ⟨hret, buildInitialStack_layout (listInv_new _) (by decide) proper_echo hn hc hret
    fun _ => ⟨by decide, by decide⟩⟩

theorem buildInitialStack_layout_oddBase :
    ((new Geometry.oneMegabyte).buildInitialStack Host.fresh 0x100000008 true
        ⟨0, 0, 0, 0, 0, 0, 0⟩ echo 0 0x4000).ret = .ok ⟨0x100014000, 0x4000, 0x17ee8⟩ ∧
      (new Geometry.oneMegabyte).StackConfined Host.fresh 0x100000008 true
        ⟨0, 0, 0, 0, 0, 0, 0⟩ echo 0 0x4000 ∧
      0x100014000 + 0x4000 ≤ (0x100000008 : UInt64).toNat + 2 ^ 32 ∧
      ¬ 16 ∣ (0x17ee8 : UInt64).toNat :=
  ⟨by decide, stackConfined_of_fits (listInv_new _) proper_echo (by decide)
    ⟨by decide, fun hwrap => absurd hwrap.1 (by decide)⟩ (by decide) (by decide),
    by decide, by decide⟩

end GuestAddressSpace

end Fathom
