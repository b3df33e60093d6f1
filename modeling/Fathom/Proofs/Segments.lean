import Fathom.Proofs.Image

/-!
# What is in memory after a load

For a file whose headers do not wrap and whose segments do not meet, `LoadElf`
leaves every segment's bytes and the zeros behind them where the
segment says, and `AT_PHDR` is where the file's own program headers have come
to be.
-/

namespace Fathom

open Lib Spanned ElfFile

/-! ## Files that keep to the format -/

/-- None of the sums over a file's headers wraps, no segment has more in the
file than in memory, and the segments are apart. That they are in the file is
for the load itself to find out. -/
structure ElfFile.Regular (file : ElfFile) : Prop where
  sizes : ∀ g ∈ file.segments, g.pType = kPtLoad → g.pFilesz.toNat ≤ g.pMemsz.toNat
  memory : ∀ g ∈ file.segments, g.pType = kPtLoad → g.pVaddr.toNat + g.pMemsz.toNat < 2 ^ 64
  contents : ∀ g ∈ file.segments, g.pType = kPtLoad → g.pOffset.toNat + g.pFilesz.toNat < 2 ^ 64
  table : file.ePhoff.toNat + file.ePhentsize.toNat * file.ePhnum.toNat < 2 ^ 64
  apart : file.segments.Pairwise fun a b => a.pType = kPtLoad → b.pType = kPtLoad →
    ∀ x, a.pVaddr.toNat ≤ x → x < a.pVaddr.toNat + a.pMemsz.toNat →
      ¬ (b.pVaddr.toNat ≤ x ∧ x < b.pVaddr.toNat + b.pMemsz.toNat)

/-- The sum that places the image does not wrap either: from the hint, or from
the guest's base, the whole span is in the address space. -/
def GuestAddressSpace.PlacesWithin (s : GuestAddressSpace) (file : ElfFile)
    (hint guestBase : UInt64) : Prop :=
  match file.eType with
  | .dyn => roundDown s.page hint.toNat + (file.span s.pageSize).toNat < 2 ^ 64
  | .exec => (file.imageBegin s.pageSize).toNat + guestBase.toNat +
      (file.span s.pageSize).toNat + s.page ≤ 2 ^ 64

theorem Phdr.loads_iff {g : Phdr} : g.loads = true ↔ g.pType = kPtLoad ∧ 0 < g.pMemsz.toNat := by
  have hzero : g.pMemsz ≠ 0 ↔ 0 < g.pMemsz.toNat := by
    rw [Nat.pos_iff_ne_zero, ne_eq, ← UInt64.toNat_inj, UInt64.toNat_zero]
  simp [Phdr.loads, ← hzero]

/-! ## The ends of the image -/

theorem foldl_loads_le (le : UInt64 → UInt64 → Prop) {pick : UInt64 → UInt64 → UInt64}
    (hrefl : ∀ a, le a a) (htrans : ∀ {a b c}, le a b → le b c → le a c)
    (hleft : ∀ a b, le (pick a b) a) (hright : ∀ a b, le (pick a b) b)
    (f : Phdr → UInt64) (segments : List Phdr) : ∀ first : UInt64,
      let last := segments.foldl (fun acc g => if g.loads then pick acc (f g) else acc) first
      le last first ∧ ∀ g ∈ segments, g.loads = true → le last (f g) := by
  induction segments with
  | nil => exact fun first => ⟨hrefl first, fun _ hg => (nomatch hg)⟩
  | cons g _ ih =>
    intro first
    rw [List.foldl_cons]
    obtain ⟨hle, hall⟩ := ih (if g.loads then pick first (f g) else first)
    cases hload : g.loads with
    | false =>
      simp only [hload, Bool.false_eq_true] at hle hall ⊢
      refine ⟨hle, fun g' hg' hload' => ?_⟩
      rcases List.mem_cons.mp hg' with rfl | hg'
      · exact nomatch hload.symm.trans hload'
      · exact hall g' hg' hload'
    | true =>
      simp only [hload] at hle hall ⊢
      refine ⟨htrans hle (hleft _ _), fun g' hg' hload' => ?_⟩
      rcases List.mem_cons.mp hg' with rfl | hg'
      · exact htrans hle (hright _ _)
      · exact hall g' hg' hload'

section

variable {file : ElfFile} {g : Phdr} (hg : g ∈ file.segments) (hload : g.loads = true)
include hg hload

theorem ElfFile.lowest_le : file.lowest.toNat ≤ g.pVaddr.toNat := by
  refine (foldl_loads_le (fun a b => a.toNat ≤ b.toNat) (fun _ => le_rfl)
    Nat.le_trans (fun a b => ?_) (fun a b => ?_) Phdr.pVaddr file.segments _).2 g hg hload
  · rw [toNat_wordMin]
    exact Nat.min_le_left _ _
  · rw [toNat_wordMin]
    exact Nat.min_le_right _ _

theorem ElfFile.le_highest : (g.pVaddr + g.pMemsz).toNat ≤ file.highest.toNat := by
  refine (foldl_loads_le (fun a b => b.toNat ≤ a.toNat) (fun _ => le_rfl) (fun h h' => h'.trans h)
    (fun a b => ?_) (fun a b => ?_) (fun g => g.pVaddr + g.pMemsz) file.segments _).2 g hg hload
  · rw [toNat_wordMax]
    exact Nat.le_max_left _ _
  · rw [toNat_wordMax]
    exact Nat.le_max_right _ _

end

namespace GuestAddressSpace

variable {s : GuestAddressSpace} {file : ElfFile} {g : Phdr}

theorem segment_in_span (hfile : file.Regular) (hspan : file.span s.pageSize ≠ 0)
    (hg : g ∈ file.segments) (hload : g.loads = true) :
    (file.imageBegin s.pageSize).toNat ≤ g.pVaddr.toNat ∧
    g.pVaddr.toNat - (file.imageBegin s.pageSize).toNat + g.pMemsz.toNat ≤
      (file.span s.pageSize).toNat := by
  obtain ⟨k, _, _, hk⟩ := s.page_pow
  have hlow := lowest_le hg hload
  have hhigh := le_highest hg hload
  have hmem := hfile.memory g hg (Phdr.loads_iff.mp hload).1
  rw [toNat_add_of_lt hmem] at hhigh
  have hbegin : (file.imageBegin s.pageSize).toNat ≤ file.lowest.toNat := by
    rw [imageBegin, toNat_maskDown hk]
    exact roundDown_le _ _
  refine ⟨by omega, ?_⟩
  by_cases hfit : file.highest.toNat + s.pageSize.toNat ≤ 2 ^ 64
  · have hend : file.highest.toNat ≤ (file.imageEnd s.pageSize).toNat := by
      rw [imageEnd, toNat_maskUp hk hfit]
      exact le_roundUp s.page_pos _
    rw [span, toNat_sub_of_le (by omega)]
    omega
  · -- The end of the image has wrapped to 0, and the difference wraps back.
    have hend : file.imageEnd s.pageSize = 0 := maskUp_wraps hk (by omega)
    have hne : (file.imageBegin s.pageSize).toNat ≠ 0 := by
      intro hzero
      apply hspan
      rw [span, hend, show file.imageBegin s.pageSize = 0 from UInt64.toNat_inj.mp hzero]
      rfl
    have hnat : (file.span s.pageSize).toNat = 2 ^ 64 - (file.imageBegin s.pageSize).toNat := by
      rw [span, hend, UInt64.toNat_sub, UInt64.toNat_zero]
      exact Nat.mod_eq_of_lt (by omega)
    omega

/-! ## The copy -/

variable {loadBase : UInt64} {segments : List Phdr}

theorem mem_of_reached (hg : g ∈ file.reached segments) : g ∈ segments := by
  induction segments with
  | nil => cases hg
  | cons g' _ ih =>
    rw [reached] at hg
    split at hg
    · exact List.mem_cons_of_mem _ (ih hg)
    · split at hg
      · rcases List.mem_cons.mp hg with rfl | hg
        · exact List.mem_cons_self
        · exact List.mem_cons_of_mem _ (ih hg)
      · rw [List.mem_singleton.mp hg]
        exact List.mem_cons_self

theorem stores_has {x : Nat}
    (hsize : ∀ g ∈ segments, g.pType = kPtLoad → g.pFilesz.toNat ≤ g.pMemsz.toNat)
    (hx : file.Stores loadBase segments x) : ∃ g ∈ segments, g.loads = true ∧ g.Has loadBase x := by
  obtain ⟨g, hg, h1, h2⟩ := hx
  have hload := reached_loads hg
  have hmem := mem_of_reached hg
  have hle := hsize g hmem (Phdr.loads_iff.mp hload).1
  refine ⟨g, hmem, hload, h1, ?_⟩
  rw [covered] at h2
  omega

def Loaded (file : ElfFile) (loadBase : UInt64) (g : Phdr) (mem : Nat → UInt8) : Prop :=
  (∀ k < g.pFilesz.toNat,
      mem ((loadBase + g.pVaddr).toNat + k) = file.bytes (g.pOffset.toNat + k)) ∧
    ∀ k, g.pFilesz.toNat ≤ k → k < g.pMemsz.toNat → mem ((loadBase + g.pVaddr).toNat + k) = 0

theorem Loaded.congr {m m' : Nat → UInt8} (hl : Loaded file loadBase g m)
    (hsize : g.pFilesz.toNat ≤ g.pMemsz.toNat) (hsame : ∀ x, g.Has loadBase x → m' x = m x) :
    Loaded file loadBase g m' := by
  have hin : ∀ k < g.pMemsz.toNat, g.Has loadBase ((loadBase + g.pVaddr).toNat + k) :=
    fun k hk => ⟨Nat.le_add_right _ _, by omega⟩
  refine ⟨fun k hk => ?_, fun k h1 h2 => ?_⟩
  · rw [hsame _ (hin k (by omega))]
    exact hl.1 k hk
  · rw [hsame _ (hin k h2)]
    exact hl.2 k h1 h2

theorem copyTurn_loaded (h : Host) (hall : g.pFilesz.toNat ≤ file.available g) :
    Loaded file loadBase g (file.copyTurn loadBase g h).2.mem := by
  refine ⟨fun k hk => ?_, fun k h1 h2 => ?_⟩
  · rw [copyTurn_mem]
    rw [if_pos (by omega), Nat.add_sub_cancel_left, Nat.add_comm k]
  · rw [copyTurn_mem]
    rw [if_neg (by omega), if_pos (by omega)]

theorem copySegments_loaded
    (hsize : ∀ g ∈ segments, g.pType = kPtLoad → g.pFilesz.toNat ≤ g.pMemsz.toNat)
    (hdis : Phdr.Disjoint loadBase segments) :
    ∀ h, (copySegments file loadBase segments h).1 = true → ∀ g ∈ segments, g.loads = true →
    Loaded file loadBase g (copySegments file loadBase segments h).2.mem := by
  induction segments with
  | nil => exact fun h _ g hg => (nomatch hg)
  | cons g rest ih =>
    obtain ⟨hhead, htail⟩ := List.pairwise_cons.mp hdis
    have hsize' := fun g' hg' => hsize g' (List.mem_cons_of_mem _ hg')
    intro h hok g' hg' hload'
    cases hload : g.loads with
    | false =>
      rw [copySegments_skip hload] at hok ⊢
      rcases List.mem_cons.mp hg' with rfl | hg'
      · exact nomatch hload.symm.trans hload'
      · exact ih hsize' htail h hok g' hg' hload'
    | true =>
      rw [copySegments_turn hload] at hok ⊢
      split at hok
      next hturn =>
        rw [if_pos hturn]
        rcases List.mem_cons.mp hg' with rfl | hg'
        · rw [copyTurn_ok, decide_eq_true_eq] at hturn
          refine (copyTurn_loaded h hturn).congr
            (hsize g' List.mem_cons_self (Phdr.loads_iff.mp hload).1) fun x hx => ?_
          refine (copySegments_storesTo file loadBase rest).kept (fun hst => ?_) _
          obtain ⟨g'', hg'', hload'', hx'⟩ := stores_has hsize' hst
          exact hhead g'' hg'' hload hload'' x hx hx'
        · exact ih hsize' htail _ hok g' hg' hload'
      · cases hok

/-! ## Where the image is -/

variable {h : Host} {hint guestBase : UInt64}

theorem loadElf_ok {image : LoadedImage}
    (hret : (s.loadElf h file hint guestBase).ret = .ok image) : file.lowest ≠ 0xFFFFFFFFFFFFFFFF ∧
    (s.placeImage h file hint guestBase).ret = .ok image.loadBase ∧
    (copySegments file image.loadBase file.segments
      (s.placeImage h file hint guestBase).host).1 = true ∧
    image.phdrAddress = file.phdrAddress image.loadBase := by
  simp only [loadElf] at hret
  split at hret
  · cases hret
  next hlow =>
    split at hret
    · cases hret
    next loadBase hplace =>
      split at hret
      next hcopy =>
        injection hret with hret
        subst hret
        exact ⟨hlow, hplace, hcopy, rfl⟩
      · cases hret

theorem placed_in_arena (hs : s.ListInv) (hat : ¬ file.AtHost guestBase)
    (hin : s.PlacesWithin file hint guestBase)
    (hret : (s.placeImage h file hint guestBase).ret = .ok loadBase) : file.span s.pageSize ≠ 0 ∧
    s.base.toNat ≤ (loadBase + file.imageBegin s.pageSize).toNat ∧
    (loadBase + file.imageBegin s.pageSize).toNat + (file.span s.pageSize).toNat ≤ s.limit := by
  cases htype : file.eType with
  | dyn =>
    simp only [PlacesWithin, htype] at hin
    rcases allocated_of_placed hs htype hret with ⟨_, ht⟩ | ⟨hwrap, _⟩
    · refine ⟨fun hzero => ?_, ht.mem_arena hs⟩
      have hpos := ht.pos
      rw [hzero] at hpos
      exact absurd hpos (by decide)
    · exact absurd hwrap.1 (by omega)
  | exec =>
    simp only [PlacesWithin, htype] at hin
    have hbase : guestBase ≠ 0 := fun hzero => hat ⟨htype, hzero⟩
    have hload := fixed_of_placed htype hret
    rw [hload] at hret ⊢
    have hsum : (file.imageBegin s.pageSize + guestBase).toNat =
        (file.imageBegin s.pageSize).toNat + guestBase.toNat :=
      toNat_add_of_lt (by have := s.page_pos; omega)
    rw [UInt64.add_comm guestBase]
    rcases (placeImage_fixed htype hbase h hint).2 with ⟨_, herr⟩ | ⟨hok, _⟩
    · rw [herr] at hret
      cases hret
    · by_contra hout
      rw [commitFixed_refused (by omega) (by
        by_cases hzero : file.span s.pageSize = 0
        · exact .inl hzero
        · exact .inr (by_contra fun hno => hout ⟨hzero, by omega⟩))] at hok
      cases hok

variable (hfile : file.Regular) (hspan : file.span s.pageSize ≠ 0)
  (hfit : (loadBase + file.imageBegin s.pageSize).toNat + (file.span s.pageSize).toNat ≤ s.limit)
include hfile hspan hfit

theorem toNat_segment (hg : g ∈ file.segments) (hload : g.loads = true) :
    (loadBase + g.pVaddr).toNat = (loadBase + file.imageBegin s.pageSize).toNat +
      (g.pVaddr.toNat - (file.imageBegin s.pageSize).toNat) := by
  obtain ⟨hle, hend⟩ := segment_in_span hfile hspan hg hload
  have hlim := s.limit_lt
  rw [toNat_destination loadBase (file.imageBegin s.pageSize), toNat_sub_of_le hle]
  exact Nat.mod_eq_of_lt (by omega)

theorem disjoint_of_regular : Phdr.Disjoint loadBase file.segments := by
  refine hfile.apart.imp_of_mem fun {a b} ha hb hapart hla hlb x hxa hxb => ?_
  obtain ⟨hlea, _⟩ := segment_in_span hfile hspan ha hla
  obtain ⟨hleb, _⟩ := segment_in_span hfile hspan hb hlb
  simp only [Phdr.Has, toNat_segment hfile hspan hfit ha hla,
    toNat_segment hfile hspan hfit hb hlb] at hxa hxb
  -- The byte, in the file's own addresses.
  refine hapart (Phdr.loads_iff.mp hla).1 (Phdr.loads_iff.mp hlb).1
    (x - (loadBase + file.imageBegin s.pageSize).toNat + (file.imageBegin s.pageSize).toNat)
    ?_ ?_ ⟨?_, ?_⟩
  · omega
  · omega
  · omega
  · omega

end GuestAddressSpace

/-! ## The program headers -/

namespace ElfFile

variable {file : ElfFile}

def tableSize (file : ElfFile) : Nat := file.ePhentsize.toNat * file.ePhnum.toNat

def CoversTable (file : ElfFile) (g : Phdr) : Prop :=
  g.pType = kPtLoad ∧ g.pOffset.toNat ≤ file.ePhoff.toNat ∧
  file.ePhoff.toNat + file.tableSize ≤ g.pOffset.toNat + g.pFilesz.toNat

theorem toNat_tableSize (file : ElfFile) :
    (file.ePhentsize.toUInt64 * file.ePhnum.toUInt64).toNat = file.tableSize := by
  exact Nat.mod_eq_of_lt (Nat.lt_of_le_of_lt (Nat.mul_le_mul (Nat.le_of_lt (UInt16.toNat_lt _))
    (Nat.le_of_lt (UInt16.toNat_lt _))) (by decide))

theorem coversTable_iff (hfile : file.Regular) {g : Phdr} (hg : g ∈ file.segments) :
    (g.pType == kPtLoad && decide (file.ePhoff ≥ g.pOffset) &&
      decide (file.ePhoff + file.ePhentsize.toUInt64 * file.ePhnum.toUInt64 ≤
        g.pOffset + g.pFilesz)) = true ↔ file.CoversTable g := by
  have htable := hfile.table
  simp only [Bool.and_eq_true, beq_iff_eq, decide_eq_true_eq, and_assoc, ge_iff_le]
  refine and_congr_right fun htype => ?_
  rw [UInt64.le_iff_toNat_le, UInt64.le_iff_toNat_le, toNat_add_of_lt (hfile.contents g hg htype),
    toNat_add_of_lt (by rw [toNat_tableSize]; exact htable), toNat_tableSize]

theorem phdrAddress_cases (hfile : file.Regular) (loadBase : UInt64) :
    ((∀ g ∈ file.segments, ¬ file.CoversTable g) ∧ file.phdrAddress loadBase = 0) ∨
    ∃ g ∈ file.segments, file.CoversTable g ∧
    file.phdrAddress loadBase = loadBase + g.pVaddr + (file.ePhoff - g.pOffset) := by
  rw [phdrAddress]
  split
  next g hfind =>
    have hg := List.mem_of_find?_eq_some hfind
    have htest := List.find?_some hfind
    exact .inr ⟨g, hg, (coversTable_iff hfile hg).mp htest, rfl⟩
  next hfind =>
    refine .inl ⟨fun g hg hcov => ?_, rfl⟩
    exact List.find?_eq_none.mp hfind g hg ((coversTable_iff hfile hg).mpr hcov)

end ElfFile

theorem ok_of_guard {ε α : Type} {c : Prop} [Decidable c] {e : ε} {x : Except ε α} {r : α}
    (h : (if c then .error e else x) = .ok r) : ¬ c ∧ x = .ok r := by
  split at h
  · cases h
  next hc => exact ⟨hc, h⟩

section

variable {contents : FileBytes} {elf : ElfFile} (hread : readHeaders contents = .ok elf)
include hread

theorem readHeaders_ok :
    elf.bytes = contents.bytes ∧ elf.ePhentsize = phdrSize elf.is32bit ∧ elf.ePhnum ≠ 0 ∧
    elf.segments = (List.range elf.ePhnum.toNat).map fun k =>
      contents.phdr elf.is32bit (elf.ePhoff.toNat + elf.ePhentsize.toNat * k) := by
  iterate 8 obtain ⟨_, hread⟩ := ok_of_guard hread
  obtain ⟨htable, hread⟩ := ok_of_guard hread
  obtain ⟨_, hread⟩ := ok_of_guard hread
  injection hread with hread
  subst hread
  rw [not_or, not_not] at htable
  exact ⟨rfl, htable.1, htable.2, rfl⟩

theorem tableSize_pos : 0 < elf.tableSize := by
  obtain ⟨_, hsize, hnum, _⟩ := readHeaders_ok hread
  have hpos : 0 < elf.ePhnum.toNat := by
    rw [Nat.pos_iff_ne_zero]
    exact fun hzero => hnum (UInt16.toNat_inj.mp hzero)
  rw [tableSize, hsize]
  refine Nat.mul_pos ?_ hpos
  cases elf.is32bit with
  | false => decide
  | true => decide

end

namespace GuestAddressSpace

variable {s : GuestAddressSpace} {h : Host} {contents : FileBytes} {elf : ElfFile}
  {image : LoadedImage} {hint guestBase : UInt64}

theorem loadElfFile_ok (hread : readHeaders contents = .ok elf)
    (hret : (s.loadElfFile h contents hint guestBase).ret = .ok image) :
    (s.loadElf h elf hint guestBase).ret = .ok image ∧
    (s.loadElfFile h contents hint guestBase).host = (s.loadElf h elf hint guestBase).host := by
  refine ⟨?_, by simp only [loadElfFile, hread]⟩
  simp only [loadElfFile, hread] at hret
  cases hload : (s.loadElf h elf hint guestBase).ret with
  | error _ =>
    rw [hload] at hret
    cases hret
  | ok _ =>
    rw [hload] at hret
    injection hret with hret
    exact congrArg _ hret

theorem coversTable_address (hfile : elf.Regular) {loadBase : UInt64}
    (hspan : elf.span s.pageSize ≠ 0)
    (hlow : s.base.toNat ≤ (loadBase + elf.imageBegin s.pageSize).toNat)
    (hfit : (loadBase + elf.imageBegin s.pageSize).toNat + (elf.span s.pageSize).toNat ≤ s.limit)
    (htable : 0 < elf.tableSize) {g : Phdr} (hg : g ∈ elf.segments) (hcov : elf.CoversTable g) :
    g.loads = true ∧ 0 < (loadBase + g.pVaddr + (elf.ePhoff - g.pOffset)).toNat ∧
    (loadBase + g.pVaddr + (elf.ePhoff - g.pOffset)).toNat =
      (loadBase + g.pVaddr).toNat + (elf.ePhoff.toNat - g.pOffset.toNat) := by
  obtain ⟨htype, hoff, hend⟩ := hcov
  have hsize := hfile.sizes g hg htype
  have hload : g.loads = true := Phdr.loads_iff.mpr ⟨htype, by omega⟩
  obtain ⟨-, hreach⟩ := segment_in_span hfile hspan hg hload
  have hdest := toNat_segment hfile hspan hfit hg hload
  have hbase := s.base_pos
  have hlim := s.limit_lt
  have hsum : (loadBase + g.pVaddr + (elf.ePhoff - g.pOffset)).toNat =
      (loadBase + g.pVaddr).toNat + (elf.ePhoff.toNat - g.pOffset.toNat) := by
    rw [toNat_add_of_lt, toNat_sub_of_le hoff]
    rw [toNat_sub_of_le hoff]
    omega
  exact ⟨hload, by omega, hsum⟩

/-- After a load every loadable segment of the table is in memory where it says,
and so, at `phdr_address`, is the table itself, whenever a segment covers it. -/
theorem loadElfFile_contents (hs : s.ListInv) (hread : readHeaders contents = .ok elf)
    (hfile : elf.Regular) (hat : ¬ elf.AtHost guestBase) (hin : s.PlacesWithin elf hint guestBase)
    (hret : (s.loadElfFile h contents hint guestBase).ret = .ok image) :
    let mem := (s.loadElfFile h contents hint guestBase).host.mem
    (∀ i < elf.ePhnum.toNat,
      let g := contents.phdr elf.is32bit (elf.ePhoff.toNat + elf.ePhentsize.toNat * i)
      g.pType = kPtLoad → Loaded elf image.loadBase g mem) ∧
    (image.phdrAddress ≠ 0 → ∀ k < elf.tableSize,
      mem (image.phdrAddress.toNat + k) = contents.bytes (elf.ePhoff.toNat + k)) ∧
    ((∃ g ∈ elf.segments, elf.CoversTable g) → image.phdrAddress ≠ 0) := by
  obtain ⟨hload, hhost⟩ := loadElfFile_ok hread hret
  obtain ⟨hlow, hplace, hcopy, hphdr⟩ := loadElf_ok hload
  obtain ⟨hspan, hbegin, hfit⟩ := placed_in_arena hs hat hin hplace
  obtain ⟨hbytes, _, _, hsegments⟩ := readHeaders_ok hread
  have htable := tableSize_pos hread
  have hloaded := copySegments_loaded hfile.sizes (disjoint_of_regular hfile hspan hfit) _ hcopy
  rw [← loadElf_copies hlow hplace, ← hhost] at hloaded
  refine ⟨fun i hi => ?_, fun hne k hk => ?_, fun ⟨g, hg, hcov⟩ => ?_⟩
  · intro g htype
    have hg : g ∈ elf.segments := by
      rw [hsegments]
      exact List.mem_map.mpr ⟨i, List.mem_range.mpr hi, rfl⟩
    rcases Nat.eq_zero_or_pos g.pMemsz.toNat with hzero | hpos
    · -- An empty segment has nothing to hold.
      have hsize := hfile.sizes g hg htype
      exact ⟨fun k hk => absurd hk (by omega), fun k _ hk => absurd hk (by omega)⟩
    · exact hloaded g hg (Phdr.loads_iff.mpr ⟨htype, hpos⟩)
  · rcases phdrAddress_cases hfile image.loadBase with ⟨_, hzero⟩ | ⟨g, hg, hcov, haddr⟩
    · exact absurd (hphdr.trans hzero) hne
    · obtain ⟨hgl, _, hsum⟩ := coversTable_address hfile hspan hbegin hfit htable hg hcov
      obtain ⟨_, hoff, hend⟩ := hcov
      have hbyte := (hloaded g hg hgl).1 (elf.ePhoff.toNat - g.pOffset.toNat + k) (by omega)
      rw [hphdr, haddr, hsum, Nat.add_assoc]
      refine hbyte.trans ?_
      rw [hbytes, ← Nat.add_assoc, Nat.add_sub_cancel' hoff]
  · rcases phdrAddress_cases hfile image.loadBase with ⟨hno, _⟩ | ⟨g', hg', hcov', haddr⟩
    · exact absurd hcov (hno g hg)
    · obtain ⟨_, hpos, _⟩ := coversTable_address hfile hspan hbegin hfit htable hg' hcov'
      rw [hphdr, haddr]
      intro hzero
      rw [hzero] at hpos
      exact absurd hpos (by decide)

theorem loadElfFile_contents_oneSegment :
    let out := onePage.space.loadElfFile onePage.host (oneSegment 0x10 0x20) 0 0
    out.host.mem 0x100014001 = 0x45 ∧ out.host.mem 0x100015000 = 0 ∧
      out.host.mem (0x100014040 + 41) = 0x20 := by
  intro out
  have hread : readHeaders (oneSegment 0x10 0x20) =
      .ok ⟨false, .dyn, 0, 64, 56, 1, [⟨1, 6, 0, 0, 0x1000, 0x2000⟩], 0x8000,
        (oneSegment 0x10 0x20).bytes⟩ := rfl
  have hret : out.ret = .ok ⟨0x100014000, 0x100014000, 0x100014040, 56, 1, 0x100014000,
      0x100018000⟩ := by decide
  obtain ⟨hsegments, htable, _⟩ := loadElfFile_contents listInv_onePage hread
    ⟨by decide, by decide, by decide, by decide, List.pairwise_singleton _ _⟩
    (fun hat => (nomatch hat.1)) (by unfold PlacesWithin; decide) hret
  have hloaded := hsegments 0 (by decide) rfl
  exact ⟨hloaded.1 1 (by decide), hloaded.2 0x1000 (by decide) (by decide),
    htable (by decide) 41 (by decide)⟩

end GuestAddressSpace

end Fathom
