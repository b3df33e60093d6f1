import Fathom.Lib.Word

/-!
# The host under the arena

What the runtime asks of the kernel it runs on, reduced to what the guest's memory can
tell: the bytes behind every address, the protection the last call left on it, and
whether each call succeeds.
-/

namespace Fathom

/-- Guest protection bits, the source's `int` mask of `GuestProtection`. -/
abbrev Prot := UInt32

def kGuestProtRead : Prot := 1
def kGuestProtWrite : Prot := 2
def kGuestProtExec : Prot := 4

def Prot.has (p bit : Prot) : Bool := p &&& bit != 0

variable (p : Prot)

theorem Prot.has_or (q bit : Prot) :
    Prot.has (p ||| q) bit = (Prot.has p bit || Prot.has q bit) := by
  have hdist : (p ||| q) &&& bit = (p &&& bit) ||| (q &&& bit) := by
    apply UInt32.toBitVec_inj.mp
    simp [BitVec.and_or_distrib_right]
  rw [Prot.has, hdist, Bool.eq_iff_iff]
  simp only [bne_iff_ne, ne_eq, UInt32.or_eq_zero_iff, Prot.has, Bool.or_eq_true]
  tauto

def Prot.le (p q : Prot) : Prop := p &&& q = p

instance (p q : Prot) : Decidable (Prot.le p q) := inferInstanceAs (Decidable (p &&& q = p))

theorem Prot.le_refl : Prot.le p p := by exact UInt32.and_self

theorem Prot.le_trans {p q r : Prot} (hpq : Prot.le p q) (hqr : Prot.le q r) : Prot.le p r := by
  unfold Prot.le at *
  rw [← hpq, UInt32.and_assoc, hqr]

theorem Prot.le_or_left (q : Prot) : Prot.le p (p ||| q) := by
  apply UInt32.toBitVec_inj.mp
  ext i hi
  simp only [UInt32.toBitVec_and, UInt32.toBitVec_or, BitVec.getElem_and]
  grind

theorem Prot.le_or_right (q : Prot) : Prot.le q (p ||| q) := by
  rw [UInt32.or_comm]
  exact Prot.le_or_left q p

/-- `PROT_READ` and `PROT_WRITE`. Nothing in the runtime asks the host for
`PROT_EXEC` on guest memory. -/
structure HostProt where
  read : Bool
  write : Bool
  deriving DecidableEq

def protNone : HostProt := ⟨false, false⟩
def protRead : HostProt := ⟨true, false⟩
def protReadWrite : HostProt := ⟨true, true⟩

def toHostProtection (guestProtection : Prot) : HostProt :=
  ⟨guestProtection.has kGuestProtRead, guestProtection.has kGuestProtWrite⟩

structure Host where
  mem : Nat → UInt8
  prot : Nat → HostProt
  /-- The byte is a file's, not the arena's own. -/
  view : Nat → Bool
  /-- The byte was stored to while it was a file's. -/
  through : Nat → Bool
  answers : Nat → Bool
  calls : Nat

namespace Host

def inSpan (address length : UInt64) (x : Nat) : Bool :=
  decide (address.toNat ≤ x) && decide (x < address.toNat + length.toNat)

variable (h : Host)

def Succeeds : Prop := ∀ k, h.calls ≤ k → h.answers k = true

/-- `mmap(address, length, PROT_NONE, MAP_FIXED | MAP_PRIVATE | MAP_ANONYMOUS)`,
the source's `MapFreshAnonymous`. -/
def mapFreshAnonymous (address length : UInt64) : Bool × Host :=
  if h.answers h.calls then
    (true, { h with
      mem := fun x => if inSpan address length x then 0 else h.mem x
      prot := fun x => if inSpan address length x then protNone else h.prot x
      view := fun x => !inSpan address length x && h.view x
      calls := h.calls + 1 })
  else (false, { h with calls := h.calls + 1 })

def mprotect (address length : UInt64) (prot : HostProt) : Bool × Host :=
  if h.answers h.calls then
    (true, { h with
      prot := fun x => if inSpan address length x then prot else h.prot x
      calls := h.calls + 1 })
  else (false, { h with calls := h.calls + 1 })

/-- `vm_remap` of `[source, source + length)` over `[target, …)`: for the moment
of the call both read the same, whether the pages are copied or shared, and
the target has the source's protection. -/
def vmRemap (target length source : UInt64) : Bool × Host :=
  if h.answers h.calls then
    (true, { h with
      mem := fun x => if inSpan target length x
        then h.mem (x - target.toNat + source.toNat) else h.mem x
      prot := fun x => if inSpan target length x
        then h.prot (x - target.toNat + source.toNat) else h.prot x
      view := fun x => if inSpan target length x
        then h.view (x - target.toNat + source.toNat) else h.view x
      calls := h.calls + 1 })
  else (false, { h with calls := h.calls + 1 })

/-- `mmap(address, length, PROT_READ | PROT_WRITE, MAP_FIXED | MAP_PRIVATE |
MAP_ANONYMOUS)`. The host refuses a length of zero. -/
def mapReadWrite (address length : UInt64) : Bool × Host :=
  if h.answers h.calls ∧ length ≠ 0 then
    (true, { h with
      mem := fun x => if inSpan address length x then 0 else h.mem x
      prot := fun x => if inSpan address length x then protReadWrite else h.prot x
      view := fun x => !inSpan address length x && h.view x
      calls := h.calls + 1 })
  else (false, { h with calls := h.calls + 1 })

/-- `mmap(address, length, prot, MAP_FIXED | MAP_SHARED, fd)`: the file's bytes,
from where the mapping starts in it. The host refuses an address that is not
on a page of its own. -/
def mapFile (page address length : UInt64) (prot : HostProt) (bytes : Nat → UInt8) : Bool × Host :=
  if h.answers h.calls ∧ address % page = 0 then
    (true, { h with
      mem := fun x => if inSpan address length x then bytes (x - address.toNat) else h.mem x
      prot := fun x => if inSpan address length x then prot else h.prot x
      view := fun x => inSpan address length x || h.view x
      calls := h.calls + 1 })
  else (false, { h with calls := h.calls + 1 })

/-- The emulator's own stores: `memset`, `memcpy`, and what `pread` puts there. -/
def store (address length : UInt64) (bytes : Nat → UInt8) : Host :=
  { h with
    mem := fun x => if inSpan address length x then bytes x else h.mem x
    through := fun x => h.through x || (inSpan address length x && h.view x) }

/-- A fresh host: all zero, no access anywhere, and every call succeeds. -/
def fresh : Host :=
  ⟨fun _ => 0, fun _ => protNone, fun _ => false, fun _ => false, fun _ => true, 0⟩

theorem succeeds_fresh : fresh.Succeeds := fun _ _ => rfl

theorem inSpan_iff {address length : UInt64} {x : Nat} :
    inSpan address length x = true ↔ address.toNat ≤ x ∧ x < address.toNat + length.toNat := by
  simp [inSpan]

theorem inSpan_zero (a : UInt64) (x : Nat) : inSpan a 0 x = false := by
  simp only [inSpan, Bool.and_eq_false_iff, decide_eq_false_iff_not, UInt64.toNat_zero]
  omega

theorem store_zero (a : UInt64) (bytes : Nat → UInt8) : h.store a 0 bytes = h := by
  simp [store, inSpan_zero]

theorem store_mem (address length : UInt64) (bytes : Nat → UInt8) (x : Nat) :
    (h.store address length bytes).mem x =
      if address.toNat ≤ x ∧ x < address.toNat + length.toNat then bytes x else h.mem x := by
  simp [store, inSpan]

variable {h}

section

variable (a n : UInt64) (hs : h.Succeeds)
include hs

theorem Succeeds.mapFresh :
    (h.mapFreshAnonymous a n).1 = true ∧ (h.mapFreshAnonymous a n).2.Succeeds := by
  unfold mapFreshAnonymous
  rw [if_pos (hs h.calls le_rfl)]
  exact ⟨rfl, fun k hk => hs k (Nat.le_of_succ_le hk)⟩

theorem Succeeds.mprotect (p : HostProt) :
    (h.mprotect a n p).1 = true ∧ (h.mprotect a n p).2.Succeeds := by
  unfold Host.mprotect
  rw [if_pos (hs h.calls le_rfl)]
  exact ⟨rfl, fun k hk => hs k (Nat.le_of_succ_le hk)⟩

theorem Succeeds.vmRemap (b : UInt64) :
    (h.vmRemap a n b).1 = true ∧ (h.vmRemap a n b).2.Succeeds := by
  unfold Host.vmRemap
  rw [if_pos (hs h.calls le_rfl)]
  exact ⟨rfl, fun k hk => hs k (Nat.le_of_succ_le hk)⟩

theorem Succeeds.vmRemap_mem (b : UInt64) (x : Nat) : (h.vmRemap a n b).2.mem x =
      if inSpan a n x then h.mem (x - a.toNat + b.toNat) else h.mem x := by
  unfold Host.vmRemap
  rw [if_pos (hs h.calls le_rfl)]

theorem Succeeds.vmRemap_prot (b : UInt64) (x : Nat) : (h.vmRemap a n b).2.prot x =
      if inSpan a n x then h.prot (x - a.toNat + b.toNat) else h.prot x := by
  unfold Host.vmRemap
  rw [if_pos (hs h.calls le_rfl)]

theorem Succeeds.mapFresh_mem (x : Nat) : (h.mapFreshAnonymous a n).2.mem x =
      if inSpan a n x then 0 else h.mem x := by
  unfold mapFreshAnonymous
  rw [if_pos (hs h.calls le_rfl)]

end

theorem mapFreshAnonymous_mem {a n : UInt64} {x : Nat} (hx : ¬ inSpan a n x = true) :
    (h.mapFreshAnonymous a n).2.mem x = h.mem x := by
  unfold mapFreshAnonymous
  split
  · exact if_neg hx
  · rfl

section

variable (a n : UInt64) (hs : h.Succeeds)
include hs

theorem Succeeds.mapFresh_prot (x : Nat) : (h.mapFreshAnonymous a n).2.prot x =
      if inSpan a n x then protNone else h.prot x := by
  unfold mapFreshAnonymous
  rw [if_pos (hs h.calls le_rfl)]

theorem Succeeds.mprotect_prot (p : HostProt) (x : Nat) :
    (h.mprotect a n p).2.prot x = if inSpan a n x then p else h.prot x := by
  unfold Host.mprotect
  rw [if_pos (hs h.calls le_rfl)]

theorem Succeeds.mapReadWrite (hn : n ≠ 0) : (h.mapReadWrite a n).1 = true := by
  unfold Host.mapReadWrite
  rw [if_pos ⟨hs h.calls le_rfl, hn⟩]

theorem Succeeds.mapReadWrite_eq : (h.mapReadWrite a n).2 = { h with
    mem := fun x => if inSpan a n x then 0 else h.mem x
    prot := fun x => if inSpan a n x then protReadWrite else h.prot x
    view := fun x => !inSpan a n x && h.view x
    calls := h.calls + 1 } := by
  unfold Host.mapReadWrite
  by_cases hn : n = 0
  · rw [if_neg fun h => h.2 hn]
    simp [inSpan_zero, hn]
  · rw [if_pos ⟨hs h.calls le_rfl, hn⟩]

end

theorem mapReadWrite_mem {a n : UInt64} {x : Nat} (hx : ¬ inSpan a n x = true) :
    (h.mapReadWrite a n).2.mem x = h.mem x := by
  unfold mapReadWrite
  split
  · exact if_neg hx
  · rfl

theorem ne_zero_of_mapReadWrite {a n : UInt64} (hok : (h.mapReadWrite a n).1 = true) : n ≠ 0 := by
  unfold mapReadWrite at hok
  split at hok
  next hgiven => exact hgiven.2
  · cases hok

theorem mapReadWrite_refused {a n : UInt64} (hno : (h.mapReadWrite a n).1 = false) :
    (h.mapReadWrite a n).2.mem = h.mem := by
  unfold mapReadWrite at hno ⊢
  split at hno
  · cases hno
  next hrefused => rw [if_neg hrefused]

theorem Succeeds.mapFile (hs : h.Succeeds) (page a n : UInt64) (p : HostProt)
    (bytes : Nat → UInt8) : ((h.mapFile page a n p bytes).1 = true ↔ a % page = 0) ∧
    (h.mapFile page a n p bytes).2.Succeeds := by
  have hk := hs h.calls le_rfl
  unfold Host.mapFile
  by_cases ha : a % page = 0
  · rw [if_pos ⟨hk, ha⟩]
    exact ⟨iff_of_true rfl ha, fun k hk => hs k (Nat.le_of_succ_le hk)⟩
  · rw [if_neg fun h => ha h.2]
    exact ⟨iff_of_false Bool.false_ne_true ha, fun k hk => hs k (Nat.le_of_succ_le hk)⟩

theorem mapFile_prot (h : Host) (page a n : UInt64) (p : HostProt) (bytes : Nat → UInt8) (x : Nat) :
    (h.mapFile page a n p bytes).2.prot x =
      if (h.mapFile page a n p bytes).1 = true ∧ inSpan a n x then p else h.prot x := by
  unfold Host.mapFile
  split <;> simp

structure Quiet (h h' : Host) : Prop where
  view : ∀ x, h'.view x = true → h.view x = true
  through : h'.through = h.through

theorem Quiet.refl (h : Host) : h.Quiet h := ⟨fun _ => id, rfl⟩

theorem Quiet.trans {h h' h'' : Host} (h₁ : h.Quiet h') (h₂ : h'.Quiet h'') : h.Quiet h'' :=
  ⟨fun x hx => h₁.view x (h₂.view x hx), h₂.through.trans h₁.through⟩

theorem mapFreshAnonymous_quiet (h : Host) (a n : UInt64) :
    h.Quiet (h.mapFreshAnonymous a n).2 := by
  unfold mapFreshAnonymous
  split
  · exact ⟨fun x hx => by simp_all, rfl⟩
  · exact ⟨fun _ => id, rfl⟩

theorem mprotect_quiet (h : Host) (a n : UInt64) (p : HostProt) : h.Quiet (h.mprotect a n p).2 := by
  unfold mprotect
  split
  · exact ⟨fun _ => id, rfl⟩
  · exact ⟨fun _ => id, rfl⟩

@[simp] theorem mprotect_mem (h : Host) (a n : UInt64) (p : HostProt) :
    (h.mprotect a n p).2.mem = h.mem := by
  unfold mprotect
  split <;> rfl

end Host

end Fathom
