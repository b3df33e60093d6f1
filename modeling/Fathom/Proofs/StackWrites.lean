import Fathom.Proofs.Image

/-!
# What building a stack writes

`BuildInitialStack` reserves the stack with a guard page below it and then works
downwards from the top: sixteen random bytes, the strings one below the other on
multiples of 16, and under them the words.
-/

namespace Fathom

open Lib Spanned

/-! ## Pushing -/

def pushAt (cursor : UInt64) (n : Nat) : UInt64 := (cursor - UInt64.ofNat n) &&& ~~~15

def pushed : UInt64 → List (List UInt8) → UInt64
  | cursor, [] => cursor
  | cursor, data :: rest => pushed (pushAt cursor data.length) rest

def addresses : UInt64 → List (List UInt8) → List UInt64
  | _, [] => []
  | cursor, data :: rest => pushAt cursor data.length :: addresses (pushAt cursor data.length) rest

def storeAll : UInt64 → List (List UInt8) → Host → Host
  | _, [], h => h
  | cursor, data :: rest, h => storeAll (pushAt cursor data.length) rest (pushBytes h cursor data).2

def pushSpans : UInt64 → List (List UInt8) → Set Nat
  | _, [] => ∅
  | cursor, data :: rest =>
    {x | (pushAt cursor data.length).toNat ≤ x ∧
      x < (pushAt cursor data.length).toNat + (UInt64.ofNat data.length).toNat} ∪
      pushSpans (pushAt cursor data.length) rest

def terminated (values : List (List UInt8)) : List (List UInt8) := (values.map (· ++ [0])).reverse

section

variable (l₁ l₂ : List (List UInt8)) (cursor : UInt64)

theorem pushed_append : pushed cursor (l₁ ++ l₂) = pushed (pushed cursor l₁) l₂ := by
  induction l₁ generalizing cursor with
  | nil => rfl
  | cons _ _ ih => exact ih _

theorem addresses_append :
    addresses cursor (l₁ ++ l₂) = addresses cursor l₁ ++ addresses (pushed cursor l₁) l₂ := by
  induction l₁ generalizing cursor with
  | nil => rfl
  | cons _ _ ih => exact congrArg _ (ih _)

theorem storeAll_append (h : Host) :
    storeAll cursor (l₁ ++ l₂) h = storeAll (pushed cursor l₁) l₂ (storeAll cursor l₁ h) := by
  induction l₁ generalizing cursor h with
  | nil => rfl
  | cons _ _ ih => exact ih _ _

theorem length_addresses (l : List (List UInt8)) : (addresses cursor l).length = l.length := by
  induction l generalizing cursor with
  | nil => rfl
  | cons _ _ ih => exact congrArg (· + 1) (ih _)

theorem storeAll_storesTo (l : List (List UInt8)) :
    Host.StoresTo (storeAll cursor l) (pushSpans cursor l) := by
  induction l generalizing cursor with
  | nil => exact Host.storesTo_id
  | cons _ _ ih => exact (ih _).comp (Host.storesTo_store _ _ _)

end

theorem pushStrings_eq (h : Host) (cursor : UInt64) (values : List (List UInt8)) :
    pushStrings h cursor values =
      ((addresses cursor (terminated values)).reverse, pushed cursor (terminated values),
        storeAll cursor (terminated values) h) := by
  induction values with
  | nil => rfl
  | cons value rest ih =>
    have hlast : terminated (value :: rest) = terminated rest ++ [value ++ [0]] := by
      simp [terminated]
    simp only [pushStrings, ih, hlast, addresses_append,
      pushed_append, storeAll_append, List.reverse_append]
    rfl

/-! ## How far down that is -/

/-- What a row of pushes takes, from a multiple of 16 down. -/
def depth (l : List (List UInt8)) : Nat := (l.map fun data => roundUp 16 data.length).sum

theorem depth_cons (data : List UInt8) (rest : List (List UInt8)) :
    depth (data :: rest) = roundUp 16 data.length + depth rest := rfl

theorem dvd_depth (l : List (List UInt8)) : 16 ∣ depth l := by
  induction l with
  | nil => exact Nat.dvd_zero _
  | cons _ _ ih => exact Nat.dvd_add (dvd_roundUp _ _) ih

variable {cursor : UInt64}

theorem toNat_pushAt {n : Nat} (h : n ≤ cursor.toNat) :
    (pushAt cursor n).toNat = roundDown 16 (cursor.toNat - n) := by
  have hn : (UInt64.ofNat n).toNat = n := UInt64.toNat_ofNat_of_lt' (h.trans_lt (toNat_lt_word _))
  rw [pushAt, toNat_mask16, toNat_sub_of_le (by omega), hn]

theorem toNat_pushAt_wraps {n : Nat} (h : cursor.toNat < n) (hn : n < 2 ^ 64) :
    (pushAt cursor n).toNat = roundDown 16 (2 ^ 64 + cursor.toNat - n) := by
  have hof : (UInt64.ofNat n).toNat = n := UInt64.toNat_ofNat_of_lt' hn
  rw [pushAt, toNat_mask16, UInt64.toNat_sub, hof]
  congr 1
  omega

section

variable (hc : 16 ∣ cursor.toNat)
include hc

theorem toNat_pushAt_aligned {n : Nat} (h : roundUp 16 n ≤ cursor.toNat) :
    (pushAt cursor n).toNat = cursor.toNat - roundUp 16 n := by
  have hle := le_roundUp (p := 16) (by decide) n
  have hlt := roundUp_lt (p := 16) (by decide) n
  rw [toNat_pushAt (by omega), roundDown_eq_iff (by decide) (Nat.dvd_sub hc (dvd_roundUp 16 n))]
  omega

theorem pushed_fits {l : List (List UInt8)} (hfit : depth l ≤ cursor.toNat) :
    (pushed cursor l).toNat = cursor.toNat - depth l ∧
    ∀ x ∈ pushSpans cursor l, cursor.toNat - depth l ≤ x ∧ x < cursor.toNat := by
  induction l generalizing cursor with
  | nil => exact ⟨rfl, fun _ hx => (nomatch hx)⟩
  | cons data _ ih =>
    rw [depth_cons] at hfit ⊢
    have hat := toNat_pushAt_aligned (n := data.length) hc (by omega)
    have hlen := le_roundUp (p := 16) (by decide) data.length
    have hword := toNat_lt_word cursor
    have hof : (UInt64.ofNat data.length).toNat = data.length :=
      UInt64.toNat_ofNat_of_lt' (Nat.lt_of_le_of_lt (by omega) hword)
    have hnext : 16 ∣ (pushAt cursor data.length).toNat := by
      rw [hat]
      exact Nat.dvd_sub hc (dvd_roundUp 16 _)
    obtain ⟨hend, hin⟩ := ih hnext (by omega)
    refine ⟨by rw [pushed]; omega, fun x hx => ?_⟩
    rcases hx with hx | hx
    · rw [Set.mem_ofPred_eq] at hx
      omega
    · have := hin x hx
      omega

theorem pushed_escapes {l : List (List UInt8)} {base : Nat} (hb : 16 ∣ base) (hpos : 0 < base)
    (hle : base ≤ cursor.toNat) (hlen : ∀ data ∈ l, 0 < data.length ∧ data.length < 2 ^ 64)
    (hout : cursor.toNat < base + depth l) : ∃ x ∈ pushSpans cursor l, x < base ∨ 2 ^ 64 ≤ x := by
  induction l generalizing cursor with
  | nil => exact absurd hout (by simp [depth]; omega)
  | cons data _ ih =>
    obtain ⟨hne, hsize⟩ := hlen data (by simp)
    have hof : (UInt64.ofNat data.length).toNat = data.length := UInt64.toNat_ofNat_of_lt' hsize
    rw [depth_cons] at hout
    by_cases hroom : base + roundUp 16 data.length ≤ cursor.toNat
    · have hat := toNat_pushAt_aligned (n := data.length) hc (by omega)
      have hnext : 16 ∣ (pushAt cursor data.length).toNat := by
        rw [hat]
        exact Nat.dvd_sub hc (dvd_roundUp 16 _)
      obtain ⟨x, hx, hbad⟩ := ih hnext (by omega) (fun d hd => hlen d (by simp [hd])) (by omega)
      exact ⟨x, .inr hx, hbad⟩
    · rcases Nat.lt_or_ge cursor.toNat data.length with hwrap | hstay
      · -- The subtraction wraps: the end of the data is past the last address.
        have hat := toNat_pushAt_wraps hwrap hsize
        have hlow := lt_roundDown_add (p := 16) (by decide) (2 ^ 64 + cursor.toNat - data.length)
        refine ⟨(pushAt cursor data.length).toNat + data.length - 1, .inl ?_, ?_⟩
        · rw [Set.mem_ofPred_eq]
          omega
        · omega
      · have hat := toNat_pushAt hstay
        have hlow : (pushAt cursor data.length).toNat < base := by
          rw [hat, roundDown_lt_iff (by decide) hb]
          have hup := (lt_roundUp_iff (n := data.length) (by decide)
            (Nat.dvd_sub hc hb)).mp (by omega)
          omega
        refine ⟨(pushAt cursor data.length).toNat, .inl ?_, .inl hlow⟩
        rw [Set.mem_ofPred_eq]
        omega

end

/-! ## Words -/

def wordSpans (wordSize word : UInt64) (n : Nat) : Set Nat :=
  {x | ∃ i < n, (word + UInt64.ofNat i * wordSize).toNat ≤ x ∧
    x < (word + UInt64.ofNat i * wordSize).toNat + wordSize.toNat}

theorem wordSpans_succ (wordSize word : UInt64) (n : Nat) :
    wordSpans wordSize word (n + 1) = {x | word.toNat ≤ x ∧ x < word.toNat + wordSize.toNat} ∪
        wordSpans wordSize (word + wordSize) n := by
  have hnext : ∀ i, word + wordSize + UInt64.ofNat i * wordSize =
      word + UInt64.ofNat (i + 1) * wordSize := by
    intro i
    rw [UInt64.ofNat_add, UInt64.add_mul, UInt64.add_assoc]
    congr 1
    rw [UInt64.add_comm]
    congr 1
    exact (UInt64.one_mul _).symm
  have hfirst : word + UInt64.ofNat 0 * wordSize = word := by
    rw [show UInt64.ofNat 0 = 0 from rfl, UInt64.zero_mul, UInt64.add_zero]
  ext x
  simp only [wordSpans, hnext]
  constructor
  · rintro ⟨i, hi, hx⟩
    cases i with
    | zero =>
      rw [hfirst] at hx
      exact .inl hx
    | succ i => exact .inr ⟨i, by omega, hx⟩
  · rintro (hx | ⟨i, hi, hx⟩)
    · exact ⟨0, by omega, by rw [hfirst]; exact hx⟩
    · exact ⟨i + 1, by omega, hx⟩

theorem putWords_storesTo (wordSize : UInt64) (words : List UInt64) (word : UInt64) :
    Host.StoresTo (putWords wordSize words word) (wordSpans wordSize word words.length) := by
  induction words generalizing word with
  | nil =>
    have hnone : wordSpans wordSize word 0 = ∅ := by
      ext x
      simp [wordSpans]
    rw [List.length_nil, hnone]
    exact Host.storesTo_id
  | cons _ _ ih =>
    rw [List.length_cons, wordSpans_succ]
    exact (ih _).comp (Host.storesTo_store _ _ _)

/-! ## The whole of it -/

def pushOrder (is32bit : Bool) (start : StartArguments) : List (List UInt8) :=
  [start.random, platformName is32bit ++ [0], start.execPath ++ [0]] ++
    (terminated start.envp ++ terminated start.argv)

def stackWordSize (is32bit : Bool) : UInt64 := if is32bit then 4 else 8

section

variable (guestBase : UInt64) (is32bit : Bool) (image : LoadedImage) (start : StartArguments)
  (interpreterBase : UInt64)

def stackWords (top : UInt64) : List UInt64 :=
  let random := pushAt top start.random.length
  let platform := pushAt random (platformName is32bit ++ [0]).length
  let execfn := pushAt platform (start.execPath ++ [0]).length
  let environment := (addresses execfn (terminated start.envp)).reverse
  let arguments := (addresses (pushed execfn (terminated start.envp))
    (terminated start.argv)).reverse
  [UInt64.ofNat arguments.length] ++ arguments.map (· - guestBase) ++ [0] ++
    environment.map (· - guestBase) ++ [0] ++
    (auxv image interpreterBase platform random execfn).flatMap fun (key, value) =>
      [key, if (key == kAtRandom || key == kAtPlatform || key == kAtExecfn) && value != 0
        then value - guestBase else value]

def stackWordCount : Nat := 1 + (start.argv.length + 1) + (start.envp.length + 1) + 38

def stackPointer (top : UInt64) : UInt64 :=
  (pushed top (pushOrder is32bit start) -
    UInt64.ofNat (stackWordCount start) * stackWordSize is32bit) &&& ~~~15

theorem length_terminated (values : List (List UInt8)) :
    (terminated values).length = values.length := by
  simp [terminated]

theorem length_stackWords (top : UInt64) :
    (stackWords guestBase is32bit image start interpreterBase top).length =
      stackWordCount start := by
  simp only [stackWords, stackWordCount, auxv, List.length_append, List.length_map,
    List.length_reverse, length_addresses, length_terminated, List.flatMap_cons, List.flatMap_nil,
    List.length_cons, List.length_nil]
  omega

theorem fillStack_eq (h : Host) (base stackSize : UInt64) :
    fillStack h guestBase is32bit image start interpreterBase base stackSize =
      let top := base + stackSize
      let rsp := stackPointer is32bit start top
      if rsp < base then (.error .tooSmall, storeAll top (pushOrder is32bit start) h)
      else (.ok ⟨base, stackSize, rsp - guestBase⟩, putWords (stackWordSize is32bit)
          (stackWords guestBase is32bit image start interpreterBase top) rsp
          (storeAll top (pushOrder is32bit start) h)) := by
  simp only [fillStack, pushStrings_eq, stackPointer, pushOrder, stackWords, pushed_append,
    storeAll_append, List.length_reverse, length_addresses, length_terminated]
  rfl

end

/-- The strings a program is started with are strings, and what is random is 16
bytes. -/
structure StartArguments.Proper (start : StartArguments) : Prop where
  random : start.random.length = 16
  execPath : start.execPath.length + 1 < 2 ^ 64
  envp : ∀ value ∈ start.envp, value.length + 1 < 2 ^ 64
  argv : ∀ value ∈ start.argv, value.length + 1 < 2 ^ 64

section Strings

variable {is32bit : Bool} {start : StartArguments} {base stackSize : UInt64}

theorem mem_terminated {values : List (List UInt8)}
    (hlen : ∀ value ∈ values, value.length + 1 < 2 ^ 64) :
    ∀ data ∈ terminated values, 0 < data.length ∧ data.length < 2 ^ 64 := by
  intro data hdata
  obtain ⟨value, hvalue, rfl⟩ := List.mem_map.mp (List.mem_reverse.mp hdata)
  rw [List.length_append]
  exact ⟨Nat.succ_pos _, hlen value hvalue⟩

def stringOrder (is32bit : Bool) (start : StartArguments) : List (List UInt8) :=
  (platformName is32bit ++ [0]) :: (start.execPath ++ [0]) ::
    (terminated start.envp ++ terminated start.argv)

section

variable (hp : start.Proper)
include hp

theorem mem_stringOrder :
    ∀ data ∈ stringOrder is32bit start, 0 < data.length ∧ data.length < 2 ^ 64 := by
  intro data hdata
  rcases List.mem_cons.mp hdata with rfl | hdata
  · cases is32bit with
    | false => decide
    | true => decide
  · rcases List.mem_cons.mp hdata with rfl | hdata
    · rw [List.length_append]
      exact ⟨Nat.succ_pos _, hp.execPath⟩
    · rcases List.mem_append.mp hdata with hdata | hdata
      · exact mem_terminated hp.envp data hdata
      · exact mem_terminated hp.argv data hdata

theorem depth_pushOrder :
    depth (pushOrder is32bit start) = 16 + depth (stringOrder is32bit start) := by
  change roundUp 16 start.random.length + _ = _
  rw [hp.random]
  rfl

section

variable (hb : 16 ∣ base.toNat) (htop : base.toNat + stackSize.toNat < 2 ^ 64)
include hb htop

theorem toNat_firstPush (h16 : 16 ≤ stackSize.toNat) :
    (pushAt (base + stackSize) start.random.length).toNat =
      base.toNat + (roundDown 16 stackSize.toNat - 16) := by
  have hsum := toNat_add_of_lt htop
  have hdown := roundDown_le 16 stackSize.toNat
  have hup := lt_roundDown_add (p := 16) (by decide) stackSize.toNat
  have hd := dvd_roundDown 16 stackSize.toNat
  rw [hp.random, toNat_pushAt (by omega), roundDown_eq_iff (by decide)
    (Nat.dvd_add hb (Nat.dvd_sub hd (Nat.dvd_refl 16)))]
  omega

theorem pushOrder_fits (hfit : depth (pushOrder is32bit start) ≤ stackSize.toNat) :
    (pushed (base + stackSize) (pushOrder is32bit start)).toNat =
        base.toNat + roundDown 16 stackSize.toNat - depth (pushOrder is32bit start) ∧
      ∀ x ∈ pushSpans (base + stackSize) (pushOrder is32bit start),
        base.toNat ≤ x ∧ x < base.toNat + stackSize.toNat := by
  have hdown := roundDown_le 16 stackSize.toNat
  have hd := dvd_roundDown 16 stackSize.toNat
  have hin : depth (pushOrder is32bit start) ≤ roundDown 16 stackSize.toNat :=
    (le_roundDown_iff (by decide) (dvd_depth _)).mpr hfit
  rw [depth_pushOrder hp] at hfit hin ⊢
  have hfirst := toNat_firstPush hp hb htop (by omega)
  have hdvd : 16 ∣ (pushAt (base + stackSize) start.random.length).toNat := by
    rw [hfirst]
    exact Nat.dvd_add hb (Nat.dvd_sub hd (Nat.dvd_refl 16))
  obtain ⟨hend, hspan⟩ := pushed_fits (l := stringOrder is32bit start) hdvd (by omega)
  refine ⟨?_, fun x hx => ?_⟩
  · change (pushed (pushAt (base + stackSize) start.random.length)
      (stringOrder is32bit start)).toNat = _
    omega
  · rcases hx with hx | hx
    · rw [hfirst, hp.random] at hx
      change _ ∧ _ < _ + 16 at hx
      omega
    · have := hspan x hx
      omega

theorem pushOrder_escapes (hpos : 0 < base.toNat)
    (hout : stackSize.toNat < depth (pushOrder is32bit start)) :
    ∃ x ∈ pushSpans (base + stackSize) (pushOrder is32bit start), x < base.toNat ∨ 2 ^ 64 ≤ x := by
  have hd := dvd_roundDown 16 stackSize.toNat
  have hdown := roundDown_le 16 stackSize.toNat
  rcases Nat.lt_or_ge stackSize.toNat 16 with hsmall | hbig
  · have hsum := toNat_add_of_lt htop
    have hlow : (pushAt (base + stackSize) start.random.length).toNat < base.toNat := by
      rw [hp.random, toNat_pushAt (by omega), roundDown_lt_iff (by decide) hb]
      omega
    refine ⟨_, .inl ⟨le_rfl, ?_⟩, .inl hlow⟩
    rw [hp.random]
    exact Nat.lt_add_of_pos_right (by decide)
  · have hfirst := toNat_firstPush hp hb htop hbig
    rw [depth_pushOrder hp] at hout
    have hdvd : 16 ∣ (pushAt (base + stackSize) start.random.length).toNat := by
      rw [hfirst]
      exact Nat.dvd_add hb (Nat.dvd_sub hd (Nat.dvd_refl 16))
    obtain ⟨x, hx, hbad⟩ := pushed_escapes (l := stringOrder is32bit start) hdvd hb hpos
      (by omega) (mem_stringOrder hp) (by omega)
    exact ⟨x, .inr hx, hbad⟩

end

end

/-! ## The words under them -/

theorem sixteen_mul_length_le {l : List (List UInt8)}
    (hlen : ∀ data ∈ l, 0 < data.length ∧ data.length < 2 ^ 64) : 16 * l.length ≤ depth l := by
  induction l with
  | nil => exact le_rfl
  | cons data _ ih =>
    have hrest := ih fun d hd => hlen d (by simp [hd])
    have hone : 16 ≤ roundUp 16 data.length :=
      Nat.le_of_dvd (Nat.lt_of_lt_of_le (hlen data (by simp)).1
        (le_roundUp (by decide) _)) (dvd_roundUp _ _)
    rw [depth_cons, List.length_cons]
    omega

theorem stackWordSize_cases (is32bit : Bool) :
    (stackWordSize is32bit).toNat = 4 ∨ (stackWordSize is32bit).toNat = 8 := by
  cases is32bit with
  | false => exact .inr rfl
  | true => exact .inl rfl

section

variable (hp : start.Proper) (hfit : depth (pushOrder is32bit start) ≤ stackSize.toNat)
include hp hfit

theorem wordBytes_le :
    stackWordCount start * (stackWordSize is32bit).toNat ≤ stackSize.toNat / 2 + 304 := by
  have hcount : 16 * (stringOrder is32bit start).length ≤ _ :=
    sixteen_mul_length_le (mem_stringOrder hp)
  have hlen : (stringOrder is32bit start).length =
      start.envp.length + start.argv.length + 1 + 1 := by
    simp [stringOrder, length_terminated]
  rw [depth_pushOrder hp] at hfit
  unfold stackWordCount
  rcases stackWordSize_cases is32bit with hsize | hsize
  · rw [hsize]
    omega
  · rw [hsize]
    omega

theorem toNat_wordBytes :
    (UInt64.ofNat (stackWordCount start) * stackWordSize is32bit).toNat =
      stackWordCount start * (stackWordSize is32bit).toNat := by
  have hle := wordBytes_le hp hfit
  have hword := toNat_lt_word stackSize
  have hcount : stackWordCount start < 2 ^ 64 := by
    rcases stackWordSize_cases is32bit with hsize | hsize
    · rw [hsize] at hle
      omega
    · rw [hsize] at hle
      omega
  rw [UInt64.toNat_mul, UInt64.toNat_ofNat_of_lt' hcount]
  exact Nat.mod_eq_of_lt (by omega)

end

theorem wordSpans_within {wordSize word : UInt64} {n : Nat}
    (hfit : word.toNat + n * wordSize.toNat < 2 ^ 64) (hpos : 0 < wordSize.toNat) {x : Nat}
    (hx : x ∈ wordSpans wordSize word n) :
    word.toNat ≤ x ∧ x < word.toNat + n * wordSize.toNat := by
  obtain ⟨i, hi, h1, h2⟩ := hx
  have hmul : i * wordSize.toNat + wordSize.toNat ≤ n * wordSize.toNat := by
    rw [← Nat.succ_mul]
    exact Nat.mul_le_mul_right _ hi
  have hile : i ≤ i * wordSize.toNat := Nat.le_mul_of_pos_right i hpos
  have hof : (UInt64.ofNat i * wordSize).toNat = i * wordSize.toNat := by
    have hword : i < 2 ^ 64 := by omega
    rw [UInt64.toNat_mul, UInt64.toNat_ofNat_of_lt' hword]
    exact Nat.mod_eq_of_lt (by omega)
  rw [toNat_add_of_lt (by omega)] at h1 h2
  omega

/-- The strings fit in a stack, and the words below them do not wrap. -/
structure StackRoom (is32bit : Bool) (start : StartArguments) (base stackSize : UInt64) : Prop where
  proper : start.Proper
  aligned : 16 ∣ base.toNat
  pos : 0 < base.toNat
  top : base.toNat + stackSize.toNat < 2 ^ 64
  strings : depth (pushOrder is32bit start) ≤ stackSize.toNat
  words : stackWordCount start * (stackWordSize is32bit).toNat ≤
    base.toNat + roundDown 16 stackSize.toNat - depth (pushOrder is32bit start)

theorem StackRoom.pointer_fits (hr : StackRoom is32bit start base stackSize) :
    (stackPointer is32bit start (base + stackSize)).toNat +
        stackWordCount start * (stackWordSize is32bit).toNat ≤
      base.toNat + roundDown 16 stackSize.toNat - depth (pushOrder is32bit start) := by
  have hwords := hr.words
  have hend := (pushOrder_fits hr.proper hr.aligned hr.top hr.strings).1
  have hbytes := toNat_wordBytes hr.proper hr.strings
  rw [stackPointer, toNat_mask16, toNat_sub_of_le (by omega), hend, hbytes]
  have hdown := roundDown_le 16 (base.toNat + roundDown 16 stackSize.toNat -
    depth (pushOrder is32bit start) - stackWordCount start * (stackWordSize is32bit).toNat)
  omega

theorem stackPointer_wraps (hp : start.Proper) (hb : 16 ∣ base.toNat) (hpos : 0 < base.toNat)
    (htop : base.toNat + stackSize.toNat < 2 ^ 64)
    (hfit : depth (pushOrder is32bit start) ≤ stackSize.toNat)
    (hwords : base.toNat + roundDown 16 stackSize.toNat - depth (pushOrder is32bit start) <
      stackWordCount start * (stackWordSize is32bit).toNat) :
    base ≤ stackPointer is32bit start (base + stackSize) ∧
      0 ∈ wordSpans (stackWordSize is32bit) (stackPointer is32bit start (base + stackSize))
        (stackWordCount start) := by
  have hend := (pushOrder_fits hp hb htop hfit).1
  have hbytes := toNat_wordBytes hp hfit
  have hle := wordBytes_le hp hfit
  have hin : depth (pushOrder is32bit start) ≤ roundDown 16 stackSize.toNat :=
    (le_roundDown_iff (by decide) (dvd_depth _)).mpr hfit
  have hrsp : (stackPointer is32bit start (base + stackSize)).toNat =
      roundDown 16 (2 ^ 64 + (base.toNat + roundDown 16 stackSize.toNat -
        depth (pushOrder is32bit start)) -
          stackWordCount start * (stackWordSize is32bit).toNat) := by
    rw [stackPointer, toNat_mask16, UInt64.toNat_sub, hbytes]
    congr 1
    omega
  have hlow := lt_roundDown_add (p := 16) (by decide) (2 ^ 64 + (base.toNat +
    roundDown 16 stackSize.toNat - depth (pushOrder is32bit start)) -
      stackWordCount start * (stackWordSize is32bit).toNat)
  have hdvd : 16 ∣ (stackPointer is32bit start (base + stackSize)).toNat := by
    rw [hrsp]
    exact dvd_roundDown _ _
  have hlt := toNat_lt_word (stackPointer is32bit start (base + stackSize))
  rw [← hrsp] at hlow
  generalize stackPointer is32bit start (base + stackSize) = rsp at hlow hdvd hlt ⊢
  refine ⟨UInt64.le_iff_toNat_le.mpr (by omega), ?_⟩
  -- The word at address 0 is the one whose offset is what `rsp` is short of the end.
  have hzero : ∀ k i : Nat, 0 < k → (stackWordSize is32bit).toNat = k →
      rsp.toNat + i * k = 2 ^ 64 → i < 2 ^ 64 → i < stackWordCount start →
      0 ∈ wordSpans (stackWordSize is32bit) rsp (stackWordCount start) := by
    intro k i hk hsize hsum hword hi
    refine ⟨i, hi, ?_⟩
    have haddr : (rsp + UInt64.ofNat i * stackWordSize is32bit).toNat = 0 := by
      rw [UInt64.toNat_add, UInt64.toNat_mul, UInt64.toNat_ofNat_of_lt' hword, hsize,
        Nat.add_mod_mod, hsum, Nat.mod_self]
    omega
  rcases stackWordSize_cases is32bit with hsize | hsize
  · rw [hsize] at hlow hwords
    exact hzero 4 ((2 ^ 64 - rsp.toNat) / 4) (by decide) hsize (by omega) (by omega) (by omega)
  · rw [hsize] at hlow hwords
    exact hzero 8 ((2 ^ 64 - rsp.toNat) / 8) (by decide) hsize (by omega) (by omega) (by omega)

end Strings

/-! ## BuildInitialStack -/

def fillSpans (is32bit : Bool) (start : StartArguments) (base stackSize : UInt64) : Set Nat :=
  pushSpans (base + stackSize) (pushOrder is32bit start) ∪
    {x | base ≤ stackPointer is32bit start (base + stackSize) ∧
      x ∈ wordSpans (stackWordSize is32bit) (stackPointer is32bit start (base + stackSize))
        (stackWordCount start)}

theorem fillStack_storesTo (guestBase : UInt64) (is32bit : Bool) (image : LoadedImage)
    (start : StartArguments) (interpreterBase base stackSize : UInt64) : Host.StoresTo
      (fun h => (fillStack h guestBase is32bit image start interpreterBase base stackSize).2)
      (fillSpans is32bit start base stackSize) := by
  have hstrings := storeAll_storesTo (base + stackSize) (pushOrder is32bit start)
  simp only [fillStack_eq, fillSpans]
  split
  next hlow =>
    have hno : ¬ base ≤ stackPointer is32bit start (base + stackSize) := UInt64.not_le.mpr hlow
    simpa only [hno, false_and, Set.ofPred_false, Set.union_empty] using hstrings
  next hlow =>
    have hyes : base ≤ stackPointer is32bit start (base + stackSize) := UInt64.not_lt.mp hlow
    have hwords := putWords_storesTo (stackWordSize is32bit)
      (stackWords guestBase is32bit image start interpreterBase (base + stackSize))
      (stackPointer is32bit start (base + stackSize))
    rw [length_stackWords] at hwords
    simpa only [hyes, true_and, Set.ofPred_mem_eq] using hwords.comp hstrings

namespace GuestAddressSpace

def stackHint (s : GuestAddressSpace) (guestBase : UInt64) (is32bit : Bool) (stackSize : UInt64) :
    UInt64 :=
  if guestBase ≠ 0 then
    (guestBase + (if is32bit then 0xFFFF0000 else s.size) - stackSize - s.pageSize) &&&
      ~~~(s.pageSize - 1)
  else 0

def reserveStack (s : GuestAddressSpace) (h : Host) (guestBase : UInt64) (is32bit : Bool)
    (stackSize : UInt64) : Out UInt64 :=
  let out := s.allocate h (stackSize + s.pageSize) (s.stackHint guestBase is32bit stackSize)
    (kGuestProtRead ||| kGuestProtWrite)
  if out.ret = 0 then out
  else
    let guarded := out.space.protect out.host out.ret s.pageSize 0
    ⟨out.ret, (guarded.host.mprotect out.ret s.pageSize protNone).2, guarded.space⟩

variable (s : GuestAddressSpace) (h : Host) (guestBase : UInt64) (is32bit : Bool)
  (image : LoadedImage) (start : StartArguments) (interpreterBase stackSize : UInt64)

theorem buildInitialStack_eq :
    s.buildInitialStack h guestBase is32bit image start interpreterBase stackSize =
      let out := s.reserveStack h guestBase is32bit stackSize
      if out.ret = 0 then ⟨.error .noRoom, out.host, out.space⟩
      else
        let filled := fillStack out.host guestBase is32bit image start interpreterBase
          (out.ret + s.pageSize) stackSize
        ⟨filled.1, filled.2, out.space⟩ := by
  by_cases hzero : (s.allocate h (stackSize + s.pageSize)
      (s.stackHint guestBase is32bit stackSize) (kGuestProtRead ||| kGuestProtWrite)).ret = 0
  · rw [stackHint] at hzero
    simp only [buildInitialStack, reserveStack, stackHint, hzero, if_true]
  · rw [stackHint] at hzero
    simp only [buildInitialStack, reserveStack, stackHint, hzero, if_false]

def StackWrites (x : Nat) : Prop :=
  let out := s.reserveStack h guestBase is32bit stackSize
  out.ret ≠ 0 ∧ ∃ m : Nat → UInt8,
  (fillStack { out.host with mem := m } guestBase is32bit image start interpreterBase
    (out.ret + s.pageSize) stackSize).2.mem x ≠ m x

/-- All it stores to is in the stack, and all of the stack is memory of the
arena that nobody had. -/
structure StackConfined : Prop where
  inside : ∀ x, s.StackWrites h guestBase is32bit image start interpreterBase stackSize x →
    let base := ((s.reserveStack h guestBase is32bit stackSize).ret + s.pageSize).toNat
    base ≤ x ∧ x < base + stackSize.toNat
  taken : (s.reserveStack h guestBase is32bit stackSize).ret ≠ 0 →
    let base := ((s.reserveStack h guestBase is32bit stackSize).ret + s.pageSize).toNat
    ∀ x, base ≤ x → x < base + stackSize.toNat → s.Unowned x

variable {s h guestBase is32bit image start interpreterBase stackSize}

theorem stackWrites_iff (hret : (s.reserveStack h guestBase is32bit stackSize).ret ≠ 0) (x : Nat) :
    s.StackWrites h guestBase is32bit image start interpreterBase stackSize x ↔
    x ∈ fillSpans is32bit start
      ((s.reserveStack h guestBase is32bit stackSize).ret + s.pageSize) stackSize := by
  rw [(fillStack_storesTo guestBase is32bit image start interpreterBase _ stackSize).mem_iff
    (s.reserveStack h guestBase is32bit stackSize).host]
  exact and_iff_right hret

/-- The sums that size and place the reservation do not wrap. -/
def StackReserved (s : GuestAddressSpace) (guestBase : UInt64) (is32bit : Bool)
    (stackSize : UInt64) : Prop :=
  stackSize.toNat + 2 * s.page ≤ 2 ^ 64 ∧
  ¬ s.HintWraps (s.stackHint guestBase is32bit stackSize) (s.alignUp (stackSize + s.pageSize))

theorem reserveStack_ret (s : GuestAddressSpace) (h : Host) (guestBase : UInt64) (is32bit : Bool)
    (stackSize : UInt64) : (s.reserveStack h guestBase is32bit stackSize).ret =
      (s.allocate h (stackSize + s.pageSize) (s.stackHint guestBase is32bit stackSize)
        (kGuestProtRead ||| kGuestProtWrite)).ret := by
  rw [reserveStack]
  split
  · rfl
  · rfl

theorem allocate_alignUp {size : UInt64} (hint : UInt64) (p : Prot) (hpos : 0 < size.toNat)
    (hfit : size.toNat + s.page ≤ 2 ^ 64) :
    s.allocate h size hint p = s.allocate h (s.alignUp size) hint p := by
  have hup := le_roundUp s.page_pos size.toNat
  have hnat := toNat_alignUp hfit
  have hne : size ≠ 0 := ne_zero_of_toNat_pos hpos
  have hne' : s.alignUp size ≠ 0 := ne_zero_of_toNat_pos (by omega)
  simp only [allocate, if_neg hne, if_neg hne', alignUp_of_dvd (s.dvd_alignUp size)]

theorem reserveStack_placed (hs : s.ListInv)
    (hret : (s.reserveStack h guestBase is32bit stackSize).ret ≠ 0) :
    (s.StackReserved guestBase is32bit stackSize ∧
        ∃ length : UInt64, s.Takes (s.reserveStack h guestBase is32bit stackSize).ret length ∧
          stackSize.toNat + s.page ≤ length.toNat) ∨
      (¬ s.StackReserved guestBase is32bit stackSize ∧
        2 ^ 64 < (s.reserveStack h guestBase is32bit stackSize).ret.toNat + stackSize.toNat +
          2 * s.page) := by
  rw [reserveStack_ret] at hret ⊢
  have hpp := s.page_pos
  by_cases hfit : stackSize.toNat + 2 * s.page ≤ 2 ^ 64
  · have hsum : (stackSize + s.pageSize).toNat = stackSize.toNat + s.page :=
      toNat_add_of_lt (by change stackSize.toNat + s.page < _; omega)
    have hnat : (s.alignUp (stackSize + s.pageSize)).toNat =
        roundUp s.page (stackSize.toNat + s.page) := by
      rw [toNat_alignUp (by omega), hsum]
    have hup := le_roundUp hpp (stackSize.toNat + s.page)
    have hlt := roundUp_lt hpp (stackSize.toNat + s.page)
    rw [allocate_alignUp _ _ (by omega) (by omega)] at hret ⊢
    rcases allocate_span hs h _ (by omega) (s.dvd_alignUp _) hret with ⟨hno, ht⟩ | ⟨hyes, hoff⟩
    · exact .inl ⟨⟨hfit, hno⟩, _, ht, by omega⟩
    · exact .inr ⟨fun hres => hres.2 hyes, by omega⟩
  · exact .inr ⟨fun hres => hfit hres.1, by omega⟩

theorem exists_not_unowned {reserved : UInt64} (hpos : 0 < stackSize.toNat)
    (hwrap : 2 ^ 64 < reserved.toNat + stackSize.toNat + 2 * s.page) :
    ∃ x, (reserved + s.pageSize).toNat ≤ x ∧
    x < (reserved + s.pageSize).toNat + stackSize.toNat ∧ ¬ s.Unowned x := by
  have hlim := s.limit_add_page
  have hbase : s.page ≤ s.base.toNat := Nat.le_of_dvd s.base_pos s.base_aligned
  by_cases hfit : reserved.toNat + s.page < 2 ^ 64
  · have hsum : (reserved + s.pageSize).toNat = reserved.toNat + s.page := toNat_add_of_lt hfit
    exact ⟨max (reserved + s.pageSize).toNat s.limit, Nat.le_max_left _ _, by omega,
      fun hun => absurd hun.2.1 (by omega)⟩
  · have hsum : (reserved + s.pageSize).toNat = reserved.toNat + s.page - 2 ^ 64 := by
      have hres := toNat_lt_word reserved
      have hpage : s.pageSize.toNat = s.page := rfl
      rw [UInt64.toNat_add, hpage, Nat.mod_eq_sub_mod (by omega), Nat.mod_eq_of_lt (by omega)]
    have hres := toNat_lt_word reserved
    exact ⟨(reserved + s.pageSize).toNat, le_rfl, by omega, fun hun => absurd hun.1 (by omega)⟩

theorem Takes.stack (hs : s.ListInv) {reserved length : UInt64} (ht : s.Takes reserved length)
    (hlen : stackSize.toNat + s.page ≤ length.toNat) :
    (reserved + s.pageSize).toNat = reserved.toNat + s.page ∧
    16 ∣ (reserved + s.pageSize).toNat ∧ 0 < (reserved + s.pageSize).toNat ∧
    (reserved + s.pageSize).toNat + stackSize.toNat ≤ s.limit ∧
    ∀ x, (reserved + s.pageSize).toNat ≤ x →
    x < (reserved + s.pageSize).toNat + stackSize.toNat → s.Unowned x := by
  have harena := ht.mem_arena hs
  have hlim := s.limit_lt
  have hpp := s.page_pos
  have hsum : (reserved + s.pageSize).toNat = reserved.toNat + s.page :=
    toNat_add_of_lt (by change reserved.toNat + s.page < _; omega)
  have h16 : 16 ∣ s.page := Nat.dvd_trans (by decide) s.guestPage_dvd_page
  refine ⟨hsum, ?_, by omega, by omega, fun x h1 h2 => ht.unowned hs (by omega) (by omega)⟩
  rw [hsum]
  exact Nat.dvd_add (Nat.dvd_trans h16 ht.start) h16

theorem fillSpans_nonempty (hp : start.Proper) (base stackSize : UInt64) :
    ∃ x, x ∈ fillSpans is32bit start base stackSize := by
  refine ⟨_, .inl (.inl ⟨le_rfl, ?_⟩)⟩
  rw [hp.random]
  exact Nat.lt_add_of_pos_right (by decide)

section

variable (hs : s.ListInv) (hp : start.Proper)
  (hret : (s.reserveStack h guestBase is32bit stackSize).ret ≠ 0)
include hs hp hret

theorem StackConfined.room
    (hc : s.StackConfined h guestBase is32bit image start interpreterBase stackSize) :
    s.StackReserved guestBase is32bit stackSize ∧ StackRoom is32bit start
      ((s.reserveStack h guestBase is32bit stackSize).ret + s.pageSize) stackSize := by
  have hlim := s.limit_lt
  obtain ⟨hinside, htaken⟩ := hc
  simp only [stackWrites_iff hret] at hinside
  rcases reserveStack_placed hs hret with ⟨hres, _, ht, hlen⟩ | ⟨_, hwrap⟩
  · obtain ⟨_, hb, hpos, hend, _⟩ := ht.stack hs hlen
    have htop := hend.trans_lt hlim
    have hfit : depth (pushOrder is32bit start) ≤ stackSize.toNat := by
      by_contra hout
      obtain ⟨x, hx, hbad⟩ := pushOrder_escapes hp hb htop hpos (Nat.lt_of_not_le hout)
      have := hinside x (.inl hx)
      omega
    refine ⟨hres, hp, hb, hpos, htop, hfit, ?_⟩
    by_contra hout
    obtain ⟨hle, hzero⟩ := stackPointer_wraps hp hb hpos htop hfit (Nat.lt_of_not_le hout)
    have := (hinside 0 (.inr ⟨hle, hzero⟩)).1
    omega
  · exfalso
    rcases Nat.eq_zero_or_pos stackSize.toNat with hzero | hpos
    · obtain ⟨x, hx⟩ := fillSpans_nonempty hp
        ((s.reserveStack h guestBase is32bit stackSize).ret + s.pageSize) stackSize
      have := hinside x hx
      omega
    · obtain ⟨x, h1, h2, hno⟩ := exists_not_unowned hpos hwrap
      exact hno (htaken hret x h1 h2)

theorem stackConfined_of_fits (hres : s.StackReserved guestBase is32bit stackSize)
    (hfit : depth (pushOrder is32bit start) ≤ stackSize.toNat)
    (hwords : stackWordCount start * (stackWordSize is32bit).toNat ≤
      ((s.reserveStack h guestBase is32bit stackSize).ret + s.pageSize).toNat +
        roundDown 16 stackSize.toNat - depth (pushOrder is32bit start)) :
    s.StackConfined h guestBase is32bit image start interpreterBase stackSize := by
  rcases reserveStack_placed hs hret with ⟨_, _, ht, hlen⟩ | ⟨hno, _⟩
  · obtain ⟨_, hb, hpos, hend, hun⟩ := ht.stack hs hlen
    have htop := hend.trans_lt s.limit_lt
    refine ⟨fun x hx => ?_, fun _ => hun⟩
    rw [stackWrites_iff hret] at hx
    rcases hx with hx | ⟨hle, hx⟩
    · exact (pushOrder_fits hp hb htop hfit).2 x hx
    · have hlast := StackRoom.pointer_fits ⟨hp, hb, hpos, htop, hfit, hwords⟩
      have hdown := roundDown_le 16 stackSize.toNat
      rw [UInt64.le_iff_toNat_le] at hle
      have hsize : 0 < (stackWordSize is32bit).toNat := by
        rcases stackWordSize_cases is32bit with h | h <;> omega
      have := wordSpans_within (by omega) hsize hx
      exact ⟨by omega, by omega⟩
  · exact absurd hres hno

end

/-- Every store of `BuildInitialStack` is inside the stack it has reserved
exactly when the strings fit in it, and nothing wraps at either end of the
address space. -/
theorem stackConfined_iff (hs : s.ListInv) (hp : start.Proper) :
    s.StackConfined h guestBase is32bit image start interpreterBase stackSize ↔
    ((s.reserveStack h guestBase is32bit stackSize).ret ≠ 0 →
      s.StackReserved guestBase is32bit stackSize ∧
      depth (pushOrder is32bit start) ≤ stackSize.toNat ∧
      stackWordCount start * (stackWordSize is32bit).toNat ≤
        ((s.reserveStack h guestBase is32bit stackSize).ret + s.pageSize).toNat +
          roundDown 16 stackSize.toNat - depth (pushOrder is32bit start)) := by
  constructor
  · intro hc hret
    obtain ⟨hres, hroom⟩ := hc.room hs hp hret
    exact ⟨hres, hroom.strings, hroom.words⟩
  · intro hcond
    by_cases hret : (s.reserveStack h guestBase is32bit stackSize).ret = 0
    · exact ⟨fun x hx => absurd hret hx.1, fun hne => absurd hret hne⟩
    · obtain ⟨hres, hfit, hwords⟩ := hcond hret
      exact stackConfined_of_fits hs hp hret hres hfit hwords

def pathOnly (n : Nat) : StartArguments := ⟨[], [], List.replicate n 0x41, List.replicate 16 7⟩

theorem buildInitialStack_overruns :
    let s := new Geometry.oneMegabyte
    let out := s.buildInitialStack Host.fresh 0 false ⟨0, 0, 0, 0, 0, 0, 0⟩ (pathOnly 64) 0 64
    (¬ s.StackConfined Host.fresh 0 false ⟨0, 0, 0, 0, 0, 0, 0⟩ (pathOnly 64) 0 64) ∧
      (s.reserveStack Host.fresh 0 false 64).ret = 0x100010000 ∧
      out.ret = .error .tooSmall ∧ out.host.mem 0x100013FD0 = 0x41 := by
  refine ⟨fun hconf => ?_, by decide, by decide, by decide⟩
  have hin := hconf.inside 0x100013FD0 ⟨by decide, fun _ => 0, by decide⟩
  exact absurd hin.1 (by decide)

theorem stackConfined_arguments :
    (new Geometry.oneMegabyte).StackConfined Host.fresh 0 false ⟨0, 0, 0, 0, 0, 0, 0⟩
      ⟨[[0x61], [0x2D, 0x78]], [[0x48, 0x3D]], [0x2F, 0x61], List.replicate 16 7⟩ 0 0x4000 := by
  rw [stackConfined_iff (listInv_new _) ⟨rfl, by decide, by decide, by decide⟩]
  exact fun _ => ⟨⟨by decide, fun hwrap => absurd hwrap.1 (by decide)⟩, by decide, by decide⟩

end GuestAddressSpace

end Fathom
