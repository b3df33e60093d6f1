import Fathom.Proofs.Wrap

/-!
# What loading a program writes

`LoadElf` takes one span for the whole image and then copies each segment to where its
header says. Nothing compares the two.
-/

namespace Fathom

open Lib Spanned ElfFile

namespace GuestAddressSpace

variable {s : GuestAddressSpace} {h h' : Host}

theorem placeImage_alike (ha : h.Alike h') (file : ElfFile) (hint guestBase : UInt64) :
    (s.placeImage h' file hint guestBase).ret = (s.placeImage h file hint guestBase).ret := by
  simp only [placeImage]
  split
  · rw [allocate_alike ha]
    split <;> rfl
  · split
    · rw [commitFixed_alike ha]
      split <;> rfl
    · rw [ha.mapReadWrite]
      split <;> rfl

end GuestAddressSpace

/-! ## What the copy covers -/

namespace ElfFile

variable (file : ElfFile)

def available (segment : Phdr) : Nat := file.size - segment.pOffset.toNat

def covered (segment : Phdr) : Nat :=
  max segment.pMemsz.toNat (min segment.pFilesz.toNat (file.available segment))

def reached : List Phdr → List Phdr
  | [] => []
  | segment :: rest =>
    if !segment.loads then reached rest
    else if segment.pFilesz.toNat ≤ file.available segment then segment :: reached rest
    else [segment]

def Stores (loadBase : UInt64) (segments : List Phdr) (x : Nat) : Prop :=
  ∃ g ∈ file.reached segments, (loadBase + g.pVaddr).toNat ≤ x ∧
  x < (loadBase + g.pVaddr).toNat + file.covered g

def copyTurn (loadBase : UInt64) (segment : Phdr) (h : Host) : Bool × Host :=
  let h := h.store (loadBase + segment.pVaddr) segment.pMemsz fun _ => 0
  if segment.pFilesz > 0
  then readExactly file h (loadBase + segment.pVaddr) segment.pFilesz segment.pOffset
  else (true, h)

end ElfFile

namespace GuestAddressSpace

variable {file : ElfFile} {loadBase : UInt64} {rest : List Phdr}

theorem copySegments_skip {g : Phdr} {h : Host} (hload : g.loads = false) :
    copySegments file loadBase (g :: rest) h = copySegments file loadBase rest h := by
  simp [copySegments, hload]

theorem copySegments_turn {g : Phdr} {h : Host} (hload : g.loads = true) :
    copySegments file loadBase (g :: rest) h = if (file.copyTurn loadBase g h).1 then
        copySegments file loadBase rest (file.copyTurn loadBase g h).2
      else (false, (file.copyTurn loadBase g h).2) := by
  simp only [copySegments, hload, copyTurn, Bool.not_true, Bool.false_eq_true, if_false]
  split
  · rfl
  · rfl

section

variable (file : ElfFile) (loadBase : UInt64) (g : Phdr)

theorem copyTurn_ok (h : Host) :
    (file.copyTurn loadBase g h).1 = decide (g.pFilesz.toNat ≤ file.available g) := by
  rw [copyTurn]
  split
  · rfl
  next hpos =>
    have hzero : g.pFilesz.toNat = 0 := by
      rw [gt_iff_lt, UInt64.lt_iff_toNat_lt, UInt64.toNat_zero] at hpos
      omega
    simp [hzero]

theorem copyTurn_mem (h : Host) (x : Nat) :
    (file.copyTurn loadBase g h).2.mem x =
      let start := (loadBase + g.pVaddr).toNat
      if start ≤ x ∧ x < start + min g.pFilesz.toNat (file.available g) then
        file.bytes (x - start + g.pOffset.toNat)
      else if start ≤ x ∧ x < start + g.pMemsz.toNat then 0
      else h.mem x := by
  have hlen : (UInt64.ofNat (min g.pFilesz.toNat (file.size - g.pOffset.toNat))).toNat =
      min g.pFilesz.toNat (file.size - g.pOffset.toNat) :=
    UInt64.toNat_ofNat_of_lt' (Nat.lt_of_le_of_lt (Nat.min_le_left _ _) (toNat_lt_word _))
  rw [copyTurn]
  split
  · simp only [readExactly, Host.store_mem]
    rw [hlen]
    rfl
  next hpos =>
    have hzero : g.pFilesz.toNat = 0 := by
      rw [gt_iff_lt, UInt64.lt_iff_toNat_lt, UInt64.toNat_zero] at hpos
      omega
    rw [if_neg (by omega)]
    exact Host.store_mem _ _ _ _ _

def turnBytes : Set Nat :=
  {x | (loadBase + g.pVaddr).toNat ≤ x ∧ x < (loadBase + g.pVaddr).toNat + file.covered g}

theorem copyTurn_storesTo :
    Host.StoresTo (fun h => (file.copyTurn loadBase g h).2) (turnBytes file loadBase g) := by
  intro x
  have hcov : file.covered g = max g.pMemsz.toNat (min g.pFilesz.toNat (file.available g)) := rfl
  simp only [copyTurn_mem, turnBytes, Set.mem_ofPred_eq]
  generalize (loadBase + g.pVaddr).toNat = start
  by_cases hread : start ≤ x ∧ x < start + min g.pFilesz.toNat (file.available g)
  · refine .inr ⟨by omega, file.bytes (x - start + g.pOffset.toNat), fun h => ?_⟩
    rw [if_pos hread]
  · by_cases hzero : start ≤ x ∧ x < start + g.pMemsz.toNat
    · refine .inr ⟨by omega, 0, fun h => ?_⟩
      rw [if_neg hread, if_pos hzero]
    · refine .inl ⟨by omega, fun h => ?_⟩
      rw [if_neg hread, if_neg hzero]

end

theorem stores_cons {g : Phdr} (hload : g.loads = true) :
    {x | file.Stores loadBase (g :: rest) x} = turnBytes file loadBase g ∪
      {x | g.pFilesz.toNat ≤ file.available g ∧ file.Stores loadBase rest x} := by
  ext x
  simp only [Stores, reached, hload, Bool.not_true, Bool.false_eq_true, if_false,
    turnBytes, Set.mem_union]
  split
  next hall => simp [hall]
  next hall => simp [hall]

theorem copySegments_storesTo (file : ElfFile) (loadBase : UInt64) (segments : List Phdr) :
    Host.StoresTo (fun h => (copySegments file loadBase segments h).2)
      {x | file.Stores loadBase segments x} := by
  induction segments with
  | nil => exact fun x => .inl ⟨fun ⟨_, hg, _⟩ => (nomatch hg), fun _ => rfl⟩
  | cons g rest ih =>
    cases hload : g.loads with
    | false =>
      have hreach : file.reached (g :: rest) = file.reached rest := by simp [reached, hload]
      simpa only [Stores, hreach, copySegments_skip hload] using ih
    | true =>
      simp only [stores_cons hload, copySegments_turn hload, copyTurn_ok]
      by_cases hall : g.pFilesz.toNat ≤ file.available g
      · simp only [hall, true_and]
        exact ih.comp (copyTurn_storesTo file loadBase g)
      · simp only [hall, false_and, Set.ofPred_false, Set.union_empty]
        exact copyTurn_storesTo file loadBase g

/-! ## What the placement maps -/

variable {s : GuestAddressSpace} {a size : UInt64}

def Unowned (s : GuestAddressSpace) (x : Nat) : Prop :=
  s.base.toNat ≤ x ∧ x < s.limit ∧ s.layout.attr x = none

theorem dvd_alignUp (s : GuestAddressSpace) (v : UInt64) : s.page ∣ (s.alignUp v).toNat := by
  by_cases hfit : v.toNat + s.page ≤ 2 ^ 64
  · rw [toNat_alignUp hfit]
    exact dvd_roundUp _ _
  · obtain ⟨k, _, _, hk⟩ := s.page_pow
    rw [show s.alignUp v = 0 from maskUp_wraps hk (by rw [Geometry.page] at hfit; omega)]
    exact Nat.dvd_zero _

theorem alignUp_add_le (s : GuestAddressSpace) (a n : UInt64) :
    (s.alignUp (a + n)).toNat ≤ roundUp s.page (a.toNat + n.toNat) := by
  have hsum : (a + n).toNat ≤ a.toNat + n.toNat := by exact Nat.mod_le _ _
  by_cases hfit : (a + n).toNat + s.page ≤ 2 ^ 64
  · rw [toNat_alignUp hfit, roundUp_le_iff s.page_pos (dvd_roundUp _ _)]
    exact hsum.trans (le_roundUp s.page_pos _)
  · obtain ⟨k, _, _, hk⟩ := s.page_pow
    rw [show s.alignUp (a + n) = 0 from maskUp_wraps hk (by rw [Geometry.page] at hfit; omega)]
    exact Nat.zero_le _

theorem alignUp_of_dvd {v : UInt64} (hv : s.page ∣ v.toNat) : s.alignUp v = v := by
  have hfit := add_le_of_dvd_of_lt hv s.page_dvd_word (toNat_lt_word v)
  apply UInt64.toNat_inj.mp
  rw [toNat_alignUp hfit, roundUp_of_dvd s.page_pos hv]

theorem commitTaken_changes (hs : s.ListInv) (h : Host) (free : List Extent) {n : UInt64} (p : Prot)
    (hlo : s.base.toNat ≤ a.toNat) (hhi : (a + n).toNat ≤ s.limit) {x : Nat}
    (hx : (s.commitTaken h free a n p).host.mem x ≠ h.mem x) :
    s.Unowned x ∧ a.toNat ≤ x ∧ x < (a + n).toNat := by
  have hhost : (s.commitTaken h free a n p).host =
      (commitRange h a (a + n) s.pageSize (toHostProtection p) s.committed).2 := by
    simp only [commitTaken]
    split <;> rfl
  rw [hhost] at hx
  have hin : a.toNat ≤ x ∧ x < (a + n).toNat := by
    by_contra hout
    exact hx (commitRange_elsewhere hs.committed h hlo hhi _ hout)
  refine ⟨⟨by omega, by omega, ?_⟩, hin⟩
  rw [layout_attr, tagAt_eq_none]
  exact fun hown => hx (commitRange_kept hs.committed h hlo hhi _ (.inl hown))

theorem commitTaken_ret_or (s : GuestAddressSpace) (h : Host) (free : List Extent) (a n : UInt64)
    (p : Prot) : (s.commitTaken h free a n p).ret = a ∨ (s.commitTaken h free a n p).ret = 0 := by
  simp only [commitTaken]
  split
  · exact .inl rfl
  · exact .inr rfl

theorem takeHint_some {hint length : UInt64} {free : List Extent}
    (h : s.takeHint hint length = some (a, free)) :
    a = s.alignDown hint ∧ s.base.toNat ≤ a.toNat ∧ (a + length).toNat ≤ s.limit := by
  rw [takeHint] at h
  split at h
  next hcond =>
    obtain ⟨_, _, heq⟩ := Option.map_eq_some_iff.mp h
    injection heq with ha _
    obtain ⟨_, hlo, hhi⟩ := hcond
    rw [UInt64.le_iff_toNat_le, s.toNat_limit] at hhi
    rw [← ha]
    exact ⟨rfl, hlo, hhi⟩
  · cases h

section

variable (hs : s.ListInv) (h : Host) (hint : UInt64) (p : Prot) (hpos : 0 < size.toNat)
  (hdvd : s.page ∣ size.toNat)
include hs hpos hdvd

theorem allocate_takes : s.allocate h size hint p = ⟨0, h, s⟩ ∨
    ∃ a free, s.base.toNat ≤ a.toNat ∧ (a + size).toNat ≤ s.limit ∧
    s.allocate h size hint p = s.commitTaken h free a size p ∧
    ((∃ free, s.takeHint hint size = some (a, free)) ∨
      (s.takeHint hint size = none ∧ s.Takes a size)) := by
  have hne : size ≠ 0 := ne_zero_of_toNat_pos hpos
  simp only [allocate, if_neg hne, alignUp_of_dvd hdvd]
  cases htake : s.takeHint hint size with
  | some found =>
    obtain ⟨_, hlo, hhi⟩ := takeHint_some htake
    exact .inr ⟨found.1, found.2, hlo, hhi, rfl, .inl ⟨found.2, rfl⟩⟩
  | none =>
    rcases hs.findFit hpos with ⟨hnone, _⟩ | ⟨a, hstart, hsome, _⟩
    · simp [hnone]
    · have ht := hs.takes_of_start hpos hdvd hstart
      have hmem := ht.mem_arena hs
      simp only [hsome]
      exact .inr ⟨a, _, hmem.1, by rw [ht.toNat_stop]; exact hmem.2, rfl, .inr ⟨trivial, ht⟩⟩

theorem allocate_changes {x : Nat}
    (hx : (s.allocate h size hint p).host.mem x ≠ h.mem x) :
    s.Unowned x ∧ ((s.allocate h size hint p).ret ≠ 0 → (s.allocate h size hint p).ret.toNat ≤ x ∧
        x < (s.allocate h size hint p).ret.toNat + size.toNat) := by
  rcases allocate_takes hs h hint p hpos hdvd with heq | ⟨a, free, hlo, hhi, heq, _⟩
  · rw [heq] at hx
    exact absurd rfl hx
  · rw [heq] at hx ⊢
    obtain ⟨hun, h1, h2⟩ := commitTaken_changes hs h free p hlo hhi hx
    refine ⟨hun, fun hret => ?_⟩
    rw [(commitTaken_ret_or s h free a size p).resolve_right hret]
    exact ⟨h1, h2.trans_le (Nat.mod_le _ _)⟩

end

def HintWraps (s : GuestAddressSpace) (hint size : UInt64) : Prop :=
  2 ^ 64 ≤ roundDown s.page hint.toNat + size.toNat ∧ (s.takeHint hint size).isSome = true

theorem allocate_span (hs : s.ListInv) (h : Host) {hint : UInt64} (p : Prot) (hpos : 0 < size.toNat)
    (hdvd : s.page ∣ size.toNat) (hret : (s.allocate h size hint p).ret ≠ 0) :
    (¬ s.HintWraps hint size ∧ s.Takes (s.allocate h size hint p).ret size) ∨
    (s.HintWraps hint size ∧ 2 ^ 64 ≤ (s.allocate h size hint p).ret.toNat + size.toNat) := by
  rcases allocate_takes hs h hint p hpos hdvd with heq | ⟨a, free, _, _, heq, hhow⟩
  · rw [heq] at hret
    exact absurd rfl hret
  · have ha : (s.allocate h size hint p).ret = a := by
      rw [heq] at hret ⊢
      exact (commitTaken_ret_or s h free a size p).resolve_right hret
    rw [ha]
    rcases hhow with ⟨_, htake⟩ | ⟨hnone, ht⟩
    · obtain ⟨hdown, _⟩ := takeHint_some htake
      have hnat : a.toNat = roundDown s.page hint.toNat := by rw [hdown, s.toNat_alignDown]
      by_cases hfit : roundDown s.page hint.toNat + size.toNat < 2 ^ 64
      · refine .inl ⟨fun hwrap => absurd hwrap.1 (by omega), ?_⟩
        rcases hs.takeHint hpos hdvd hfit with ⟨_, hno⟩ | ⟨huse, _⟩
        · rw [hno] at htake
          cases htake
        · exact hs.takes_of_start hpos hdvd (hnat ▸ huse.2)
      · exact .inr ⟨⟨by omega, by rw [htake]; rfl⟩, by omega⟩
    · refine .inl ⟨fun hwrap => ?_, ht⟩
      have hsome := hwrap.2
      rw [hnone] at hsome
      cases hsome

theorem commitFixed_changes (hs : s.ListInv) (h : Host) {n : UInt64} (p : Prot) {x : Nat}
    (hx : (s.commitFixed h a n p).host.mem x ≠ h.mem x) :
    s.Unowned x ∧ roundDown s.page a.toNat ≤ x ∧ x < roundUp s.page (a.toNat + n.toNat) := by
  have hdown := s.toNat_alignDown a
  have hup := s.alignUp_add_le a n
  simp only [commitFixed] at hx
  split at hx
  · exact absurd rfl hx
  · split at hx
    · exact absurd rfl hx
    next hin =>
      rw [not_or, UInt64.not_lt, UInt64.le_iff_toNat_le, UInt64.not_lt,
        UInt64.le_iff_toNat_le, s.toNat_limit] at hin
      obtain ⟨hlo, hhi⟩ := hin
      have hb : s.page ∣ (s.alignDown a).toNat := hdown ▸ dvd_roundDown _ _
      have he := s.dvd_alignUp (a + n)
      split at hx
      · -- Part of it has owners: only the gaps are mapped.
        rw [protectLocked_mem] at hx
        have hgap : InGaps (uncommittedIn s.committed (s.alignDown a) (s.alignUp (a + n))) x := by
          by_contra hout
          exact hx ((commitGaps_spec h hs (hs.pending_gaps hb he hlo hhi)
            (gaps_uncommittedIn hs.committed _ _).sorted).2.1 x hout)
        obtain ⟨hwin, hnone⟩ := hs.inGaps_iff.mp hgap
        exact ⟨⟨by omega, by omega, hnone⟩, by omega, by omega⟩
      · have hmem : (commitRange h (s.alignDown a) (s.alignUp (a + n)) s.pageSize
            (toHostProtection p) s.committed).2.mem x ≠ h.mem x := by
          split at hx
          · exact hx
          · exact hx
        have hwin : (s.alignDown a).toNat ≤ x ∧ x < (s.alignUp (a + n)).toNat := by
          by_contra hout
          exact hmem (commitRange_elsewhere hs.committed h hlo hhi _ hout)
        refine ⟨⟨by omega, by omega, ?_⟩, by omega, by omega⟩
        rw [layout_attr, tagAt_eq_none]
        exact fun hown => hmem (commitRange_kept hs.committed h hlo hhi _ (.inl hown))

end GuestAddressSpace

/-! ## The span of an image -/

namespace ElfFile

def span (file : ElfFile) (pageSize : UInt64) : UInt64 :=
  file.imageEnd pageSize - file.imageBegin pageSize

/-- A fixed image that goes wherever it says in the host's own addresses. -/
def AtHost (file : ElfFile) (guestBase : UInt64) : Prop := file.eType = .exec ∧ guestBase = 0

end ElfFile

namespace GuestAddressSpace

variable {s : GuestAddressSpace} {file : ElfFile} {guestBase : UInt64}

section

variable (s : GuestAddressSpace) (file : ElfFile)

theorem dvd_imageBegin : s.page ∣ (file.imageBegin s.pageSize).toNat := by
  obtain ⟨k, _, _, hk⟩ := s.page_pow
  rw [imageBegin, toNat_maskDown hk]
  exact dvd_roundDown _ _

theorem dvd_span : s.page ∣ (file.span s.pageSize).toNat := by
  have hb := s.dvd_imageBegin file
  have he : s.page ∣ (file.imageEnd s.pageSize).toNat := s.dvd_alignUp file.highest
  exact (Nat.dvd_mod_iff s.page_dvd_word).mpr (Nat.dvd_add (Nat.dvd_sub s.page_dvd_word hb) he)

def InImage (loadBase : UInt64) (x : Nat) : Prop :=
  let start := (loadBase + file.imageBegin s.pageSize).toNat
  roundDown s.page start ≤ x ∧ x < roundUp s.page (start + (file.span s.pageSize).toNat)

end

theorem placeImage_dyn (htype : file.eType = .dyn) (h : Host) (hint guestBase : UInt64) :
    let out := s.allocate h (file.span s.pageSize) hint (kGuestProtRead ||| kGuestProtWrite)
    (s.placeImage h file hint guestBase).host = out.host ∧
      ((out.ret = 0 ∧ (s.placeImage h file hint guestBase).ret = .error .imageDoesNotFit) ∨
        (out.ret ≠ 0 ∧ (s.placeImage h file hint guestBase).ret =
          .ok (out.ret - file.imageBegin s.pageSize))) := by
  simp only [placeImage, htype]
  split
  next hzero => exact ⟨rfl, .inl ⟨hzero, rfl⟩⟩
  next hret => exact ⟨rfl, .inr ⟨hret, rfl⟩⟩

theorem placeImage_fixed (htype : file.eType = .exec) (hbase : guestBase ≠ 0) (h : Host)
    (hint : UInt64) :
    let out := s.commitFixed h (file.imageBegin s.pageSize + guestBase) (file.span s.pageSize)
      (kGuestProtRead ||| kGuestProtWrite)
    (s.placeImage h file hint guestBase).host = out.host ∧
      ((out.ret = false ∧ (s.placeImage h file hint guestBase).ret = .error .fixedAddressTaken) ∨
        (out.ret = true ∧ (s.placeImage h file hint guestBase).ret = .ok guestBase)) := by
  simp only [placeImage, htype, if_pos hbase]
  split
  next hret => exact ⟨rfl, .inr ⟨hret, rfl⟩⟩
  next hret => exact ⟨rfl, .inl ⟨Bool.eq_false_iff.mpr hret, rfl⟩⟩

theorem placeImage_atHost (htype : file.eType = .exec) (h : Host) (hint : UInt64) :
    let out := h.mapReadWrite (file.imageBegin s.pageSize) (file.span s.pageSize)
    (s.placeImage h file hint 0).host = out.2 ∧
      ((out.1 = false ∧ (s.placeImage h file hint 0).ret =
          .error (.fixedAddressRefused (file.imageBegin s.pageSize))) ∨
        (out.1 = true ∧ (s.placeImage h file hint 0).ret = .ok 0)) := by
  simp only [placeImage, htype, ne_eq, not_true_eq_false, if_false]
  split
  next hret => exact ⟨rfl, .inr ⟨hret, rfl⟩⟩
  next hret => exact ⟨rfl, .inl ⟨Bool.eq_false_iff.mpr hret, rfl⟩⟩

theorem placeImage_changes (hs : s.ListInv) (h : Host) (file : ElfFile) (hint guestBase : UInt64)
    {x : Nat} (hx : (s.placeImage h file hint guestBase).host.mem x ≠ h.mem x) :
    (¬ file.AtHost guestBase → s.Unowned x) ∧
    (file.AtHost guestBase → (s.placeImage h file hint guestBase).ret = .ok 0) ∧
    ∀ loadBase, (s.placeImage h file hint guestBase).ret = .ok loadBase →
    s.InImage file loadBase x := by
  have hdvd := s.dvd_span file
  cases htype : file.eType with
  | dyn =>
    obtain ⟨hhost, hcases⟩ := placeImage_dyn htype h hint guestBase
    have hnot : ¬ file.AtHost guestBase := fun hat => nomatch htype.symm.trans hat.1
    rw [hhost] at hx
    rcases Nat.eq_zero_or_pos (file.span s.pageSize).toNat with hzero | hpos
    · have : file.span s.pageSize = 0 := UInt64.toNat_inj.mp hzero
      rw [this] at hx
      exact absurd rfl hx
    · obtain ⟨hun, hin⟩ := allocate_changes hs h hint _ hpos hdvd hx
      refine ⟨fun _ => hun, fun hat => absurd hat hnot, fun loadBase hret => ?_⟩
      rcases hcases with ⟨_, herr⟩ | ⟨hne, hok⟩
      · rw [herr] at hret
        cases hret
      · rw [hok] at hret
        injection hret with hret
        obtain ⟨h1, h2⟩ := hin hne
        simp only [InImage, ← hret, UInt64.sub_add_cancel]
        exact ⟨Nat.le_trans (roundDown_le _ _) h1, h2.trans_le (le_roundUp s.page_pos _)⟩
  | exec =>
    by_cases hbase : guestBase = 0
    · subst hbase
      obtain ⟨hhost, hcases⟩ := placeImage_atHost htype h hint
      rw [hhost] at hx
      rcases hcases with ⟨hno, _⟩ | ⟨_, hok⟩
      · exact absurd (congrFun (Host.mapReadWrite_refused hno) x) hx
      · refine ⟨fun hnot => absurd ⟨htype, rfl⟩ hnot, fun _ => hok, fun loadBase hret => ?_⟩
        rw [hok] at hret
        injection hret with hret
        have hin : Host.inSpan (file.imageBegin s.pageSize) (file.span s.pageSize) x = true := by
          by_contra hout
          exact hx (Host.mapReadWrite_mem hout)
        rw [Host.inSpan_iff] at hin
        simp only [InImage, ← hret, UInt64.zero_add]
        exact ⟨Nat.le_trans (roundDown_le _ _) hin.1,
          Nat.lt_of_lt_of_le hin.2 (le_roundUp s.page_pos _)⟩
    · obtain ⟨hhost, hcases⟩ := placeImage_fixed htype hbase h hint
      rw [hhost] at hx
      obtain ⟨hun, hin⟩ := commitFixed_changes hs h _ hx
      refine ⟨fun _ => hun, fun hat => absurd hat.2 hbase, fun loadBase hret => ?_⟩
      rcases hcases with ⟨_, herr⟩ | ⟨_, hok⟩
      · rw [herr] at hret
        cases hret
      · rw [hok] at hret
        injection hret with hret
        simp only [InImage, ← hret, UInt64.add_comm guestBase]
        exact hin

/-! ## What a load writes -/

def Writes (s : GuestAddressSpace) (h : Host) (file : FileBytes) (hint guestBase : UInt64)
    (x : Nat) : Prop :=
  ∃ m : Nat → UInt8, (s.loadElfFile { h with mem := m } file hint guestBase).host.mem x ≠ m x

/-- The file is one `ReadHeaders` accepts, and its image goes to `loadBase`. -/
structure ImageAt (s : GuestAddressSpace) (h : Host) (file : FileBytes) (hint guestBase : UInt64)
    (elf : ElfFile) (loadBase : UInt64) : Prop where
  headers : readHeaders file = .ok elf
  loadable : elf.lowest ≠ 0xFFFFFFFFFFFFFFFF
  placed : (s.placeImage h elf hint guestBase).ret = .ok loadBase

def Vacancy (s : GuestAddressSpace) (mapped : Set Nat) (elf : ElfFile) (guestBase : UInt64)
    (x : Nat) : Prop :=
  (elf.AtHost guestBase → x < 2 ^ 64 ∧ x ∉ mapped) ∧ (¬ elf.AtHost guestBase → s.Unowned x)

/-- The call writes and maps only memory it has taken for the image, and takes
only memory that was vacant. A call that is refused its span writes to vacant
memory at most, and one that has no image to place writes to none. -/
structure WritesTaken (s : GuestAddressSpace) (h : Host) (mapped : Set Nat) (file : FileBytes)
    (hint guestBase : UInt64) : Prop where
  writes : ∀ x, s.Writes h file hint guestBase x → ∃ elf, readHeaders file = .ok elf ∧
    s.Vacancy mapped elf guestBase x
  inside : ∀ elf loadBase, s.ImageAt h file hint guestBase elf loadBase →
    ∀ x, s.Writes h file hint guestBase x → s.InImage elf loadBase x
  vacant : ∀ elf loadBase, s.ImageAt h file hint guestBase elf loadBase →
    ∀ x, s.InImage elf loadBase x → s.Vacancy mapped elf guestBase x

theorem protectSegments_mem (loadBase : UInt64) (segments : List Phdr) : ∀ (s : GuestAddressSpace)
    (h : Host), (protectSegments loadBase segments s h).1.mem = h.mem := by
  induction segments with
  | nil => exact fun _ _ => rfl
  | cons g _ ih =>
    intro s h
    cases hload : g.loads with
    | false =>
      rw [protectSegments_skip hload]
      exact ih s h
    | true =>
      rw [protectSegments_turn hload, ih]
      rw [protect]
      split
      · exact protectLocked_mem _ _ _ _ _
      · exact protectLocked_mem _ _ _ _ _

theorem loadElf_refused {h : Host} {hint : UInt64} {error : LoadError}
    (hlow : file.lowest ≠ 0xFFFFFFFFFFFFFFFF)
    (hret : (s.placeImage h file hint guestBase).ret = .error error) :
    (s.loadElf h file hint guestBase).host = (s.placeImage h file hint guestBase).host := by
  simp only [loadElf, if_neg hlow, hret]

theorem loadElf_copies {h : Host} {hint loadBase : UInt64} (hlow : file.lowest ≠ 0xFFFFFFFFFFFFFFFF)
    (hret : (s.placeImage h file hint guestBase).ret = .ok loadBase) :
    (s.loadElf h file hint guestBase).host.mem = (copySegments file loadBase file.segments
        (s.placeImage h file hint guestBase).host).2.mem := by
  simp only [loadElf, if_neg hlow, hret]
  split
  · exact protectSegments_mem _ _ _ _
  · rfl

variable {h : Host} {contents : FileBytes} {hint guestBase : UInt64} {elf : ElfFile}

theorem Writes.reads {x : Nat} (hw : s.Writes h contents hint guestBase x) :
    ∃ elf, readHeaders contents = .ok elf ∧ elf.lowest ≠ 0xFFFFFFFFFFFFFFFF ∧
    ∃ m, (s.loadElf { h with mem := m } elf hint guestBase).host.mem x ≠ m x := by
  obtain ⟨m, hm⟩ := hw
  rw [loadElfFile] at hm
  split at hm
  · exact absurd rfl hm
  next elf hread =>
    refine ⟨elf, hread, fun hnone => ?_, m, hm⟩
    simp only [loadElf, if_pos hnone] at hm
    exact absurd rfl hm

theorem ImageAt.writes_iff {loadBase : UInt64}
    (hp : s.ImageAt h contents hint guestBase elf loadBase) (x : Nat) :
    s.Writes h contents hint guestBase x ↔ elf.Stores loadBase elf.segments x ∨
    (¬ elf.Stores loadBase elf.segments x ∧
      ∃ m, (s.placeImage { h with mem := m } elf hint guestBase).host.mem x ≠ m x) := by
  have hmem : ∀ m, (s.loadElfFile { h with mem := m } contents hint guestBase).host.mem x =
      (copySegments elf loadBase elf.segments
        (s.placeImage { h with mem := m } elf hint guestBase).host).2.mem x := by
    intro m
    have hret : (s.placeImage { h with mem := m } elf hint guestBase).ret = .ok loadBase :=
      (placeImage_alike (h.alike_mem m) elf hint guestBase).trans hp.placed
    simp only [loadElfFile, hp.headers, loadElf_copies hp.loadable hret]
  simp only [Writes, hmem]
  rcases copySegments_storesTo elf loadBase elf.segments x with ⟨hno, hkeep⟩ | ⟨hyes, v, hv⟩
  · rw [Set.mem_ofPred_eq] at hno
    simp [hno, hkeep, not_false_eq_true]
  · -- The copy leaves `v` there: a memory that holds something else is changed.
    rw [Set.mem_ofPred_eq] at hyes
    simp only [hyes, true_or, iff_true, hv]
    exact ⟨fun _ => v + 1, by simp⟩

/-! ## When that is the memory taken -/

/-- Which images stay in the span that is taken for them. One the arena places
is in free memory, unless the hint wraps; then it is a matter of the headers,
whether each segment ends by the end of the span. A fixed one goes where it
says: nothing looks at what is there. -/
def Contained (s : GuestAddressSpace) (mapped : Set Nat) (elf : ElfFile)
    (hint guestBase : UInt64) : Prop :=
  match elf.eType with
  | .dyn => ¬ s.HintWraps hint (elf.span s.pageSize) ∧ ∀ g ∈ elf.reached elf.segments,
        (g.pVaddr - elf.imageBegin s.pageSize).toNat + elf.covered g ≤ (elf.span s.pageSize).toNat
  | .exec => (∀ x, s.InImage elf guestBase x → s.Vacancy mapped elf guestBase x) ∧
      ∀ g ∈ elf.reached elf.segments,
        let start := (guestBase + elf.imageBegin s.pageSize).toNat
        roundDown s.page start ≤ (guestBase + g.pVaddr).toNat ∧
          (guestBase + g.pVaddr).toNat + elf.covered g ≤
            roundUp s.page (start + (elf.span s.pageSize).toNat)

section

variable {g : Phdr} {segments : List Phdr} (hg : g ∈ elf.reached segments)
include hg

theorem reached_loads : g.loads = true := by
  induction segments with
  | nil => cases hg
  | cons g' _ ih =>
    rw [reached] at hg
    split at hg
    · exact ih hg
    next hload =>
      simp only [Bool.not_eq_true', Bool.not_eq_false] at hload
      split at hg
      · rcases List.mem_cons.mp hg with rfl | hg
        · exact hload
        · exact ih hg
      · rw [List.mem_singleton.mp hg]
        exact hload

theorem covered_pos : 0 < elf.covered g := by
  have hload := reached_loads hg
  have hne : g.pMemsz.toNat ≠ 0 := by
    intro hzero
    have : g.pMemsz = 0 := UInt64.toNat_inj.mp hzero
    simp [Phdr.loads, this] at hload
  rw [covered]
  omega

end

variable {elf : ElfFile} {loadBase : UInt64}

theorem fixed_of_placed (htype : elf.eType = .exec)
    (hret : (s.placeImage h elf hint guestBase).ret = .ok loadBase) : loadBase = guestBase := by
  by_cases hbase : guestBase = 0
  · subst hbase
    rcases (placeImage_atHost htype h hint).2 with ⟨_, herr⟩ | ⟨_, hok⟩
    · rw [herr] at hret
      cases hret
    · rw [hok] at hret
      injection hret with hret
      exact hret.symm
  · rcases (placeImage_fixed htype hbase h hint).2 with ⟨_, herr⟩ | ⟨_, hok⟩
    · rw [herr] at hret
      cases hret
    · rw [hok] at hret
      injection hret with hret
      exact hret.symm

theorem allocated_of_placed (hs : s.ListInv) (htype : elf.eType = .dyn)
    (hret : (s.placeImage h elf hint guestBase).ret = .ok loadBase) :
    let start := loadBase + elf.imageBegin s.pageSize
    let span := elf.span s.pageSize
    (¬ s.HintWraps hint span ∧ s.Takes start span) ∨
      (s.HintWraps hint span ∧ 2 ^ 64 ≤ start.toNat + span.toNat) := by
  intro start span
  rcases (placeImage_dyn htype h hint guestBase).2 with ⟨_, herr⟩ | ⟨hne, hok⟩
  · rw [herr] at hret
    cases hret
  · rw [hok] at hret
    injection hret with hret
    have hstart : start = (s.allocate h span hint (kGuestProtRead ||| kGuestProtWrite)).ret := by
      simp only [start, ← hret, UInt64.sub_add_cancel]
      rfl
    have hpos : 0 < span.toNat := by
      rcases Nat.eq_zero_or_pos span.toNat with hzero | hpos
      · rw [show elf.span s.pageSize = 0 from UInt64.toNat_inj.mp hzero] at hne
        exact absurd rfl hne
      · exact hpos
    rw [hstart]
    exact allocate_span hs h _ hpos (s.dvd_span elf) hne

theorem Takes.inImage_iff (ht : s.Takes (loadBase + elf.imageBegin s.pageSize)
    (elf.span s.pageSize)) (x : Nat) :
    s.InImage elf loadBase x ↔ (loadBase + elf.imageBegin s.pageSize).toNat ≤ x ∧
    x < (loadBase + elf.imageBegin s.pageSize).toNat + (elf.span s.pageSize).toNat := by
  rw [InImage]
  rw [roundDown_of_dvd ht.start, roundUp_of_dvd s.page_pos (Nat.dvd_add ht.start ht.length)]

theorem Takes.unowned {a n : UInt64} (ht : s.Takes a n) (hs : s.ListInv) {x : Nat}
    (h1 : a.toNat ≤ x) (h2 : x < a.toNat + n.toNat) : s.Unowned x := by
  have hfree := ht.free x h1 h2
  obtain ⟨hlo, hhi⟩ := hs.free_mem hfree
  exact ⟨hlo, hhi, hs.apart x hfree⟩

theorem toNat_destination (loadBase begin vaddr : UInt64) :
    (loadBase + vaddr).toNat = ((loadBase + begin).toNat + (vaddr - begin).toNat) % 2 ^ 64 := by
  rw [← UInt64.toNat_add]
  congr 1
  rw [UInt64.add_assoc, UInt64.add_comm begin, UInt64.sub_add_cancel]

/-- A span that was nobody's, and every store in it. -/
def StaysIn (s : GuestAddressSpace) (mapped : Set Nat) (elf : ElfFile)
    (guestBase loadBase : UInt64) : Prop :=
  (∀ x, s.InImage elf loadBase x → s.Vacancy mapped elf guestBase x) ∧
  ∀ x, elf.Stores loadBase elf.segments x → s.InImage elf loadBase x

theorem ImageAt.contained_fixed (hp : s.ImageAt h contents hint guestBase elf loadBase)
    (htype : elf.eType = .exec) (mapped : Set Nat) : s.Contained mapped elf hint guestBase ↔
    s.StaysIn mapped elf guestBase loadBase := by
  rw [fixed_of_placed htype hp.placed]
  simp only [Contained, StaysIn, htype]
  refine and_congr_right fun _ => ⟨fun hin x ⟨g, hg, h1, h2⟩ => ?_, fun hin g hg => ?_⟩
  · obtain ⟨hlow, hhigh⟩ := hin g hg
    exact ⟨hlow.trans h1, h2.trans_le hhigh⟩
  · have hpos := covered_pos hg
    have hfirst := hin (guestBase + g.pVaddr).toNat ⟨g, hg, le_rfl, by omega⟩
    have hlast := hin ((guestBase + g.pVaddr).toNat + elf.covered g - 1) ⟨g, hg, by omega, by omega⟩
    exact ⟨hfirst.1, by have := hlast.2; omega⟩

theorem ImageAt.contained_allocated (hs : s.ListInv)
    (hp : s.ImageAt h contents hint guestBase elf loadBase) (htype : elf.eType = .dyn)
    (mapped : Set Nat) : s.Contained mapped elf hint guestBase ↔
    s.StaysIn mapped elf guestBase loadBase := by
  have hat : ¬ elf.AtHost guestBase := fun hat => nomatch htype.symm.trans hat.1
  simp only [Contained, StaysIn, htype, Vacancy, hat, false_implies, true_and, not_false_eq_true,
    true_implies]
  rcases allocated_of_placed hs htype hp.placed with ⟨hwrap, ht⟩ | ⟨hwrap, hoff⟩
  · have hfits := ht.fits
    have hdest := toNat_destination loadBase (elf.imageBegin s.pageSize)
    simp only [hwrap, not_false_eq_true, true_and, ht.inImage_iff]
    have hvac : ∀ x, (loadBase + elf.imageBegin s.pageSize).toNat ≤ x ∧
        x < (loadBase + elf.imageBegin s.pageSize).toNat + (elf.span s.pageSize).toNat →
        s.Unowned x := fun x hx => ht.unowned hs hx.1 hx.2
    rw [and_iff_right hvac]
    constructor
    · rintro hin x ⟨g, hg, h1, h2⟩
      have hfit := hin g hg
      rw [hdest] at h1 h2
      omega
    · intro hin g hg
      have hpos := covered_pos hg
      have hoff := toNat_lt_word (g.pVaddr - elf.imageBegin s.pageSize)
      have hfirst := hin (loadBase + g.pVaddr).toNat ⟨g, hg, le_rfl, by omega⟩
      have hlast := hin ((loadBase + g.pVaddr).toNat + elf.covered g - 1)
        ⟨g, hg, by omega, by omega⟩
      have hd := hdest g.pVaddr
      -- A destination that has wrapped is below the image.
      rcases Nat.lt_or_ge ((loadBase + elf.imageBegin s.pageSize).toNat +
        (g.pVaddr - elf.imageBegin s.pageSize).toNat) (2 ^ 64) with - | -
      · omega
      · omega
  · -- The span reaches past the arena, whose last byte is an address.
    simp only [hwrap, not_true_eq_false, false_and, false_iff, not_and]
    intro hvac
    have hlim := s.limit_lt
    have hword := toNat_lt_word (loadBase + elf.imageBegin s.pageSize)
    have hbad := hvac (max (loadBase + elf.imageBegin s.pageSize).toNat s.limit)
      ⟨Nat.le_trans (roundDown_le _ _) (Nat.le_max_left _ _),
        Nat.lt_of_lt_of_le (by omega) (le_roundUp s.page_pos _)⟩
    exact absurd hbad.2.1 (by omega)

theorem ImageAt.contained_iff (hs : s.ListInv)
    (hp : s.ImageAt h contents hint guestBase elf loadBase) (mapped : Set Nat) :
    s.Contained mapped elf hint guestBase ↔ s.StaysIn mapped elf guestBase loadBase := by
  cases htype : elf.eType with
  | dyn => exact hp.contained_allocated hs htype mapped
  | exec => exact hp.contained_fixed htype mapped

/-- A load writes and maps only memory it has just taken, and that was nobody's,
exactly when its image is one that stays in its span. -/
theorem loadElfFile_writesTaken_iff (hs : s.ListInv) (h : Host) (mapped : Set Nat)
    (contents : FileBytes) (hint guestBase : UInt64) :
    s.WritesTaken h mapped contents hint guestBase ↔
    ∀ elf loadBase, s.ImageAt h contents hint guestBase elf loadBase →
    s.Contained mapped elf hint guestBase := by
  constructor
  · intro hw elf loadBase hp
    rw [hp.contained_iff hs]
    exact ⟨hw.vacant elf loadBase hp,
      fun x hx => hw.inside elf loadBase hp x ((hp.writes_iff x).mpr (.inl hx))⟩
  · intro hall
    have hinside : ∀ elf loadBase, s.ImageAt h contents hint guestBase elf loadBase →
        ∀ x, s.Writes h contents hint guestBase x → s.InImage elf loadBase x := by
      intro elf loadBase hp x hx
      rcases (hp.writes_iff x).mp hx with hst | ⟨_, m, hm⟩
      · exact ((hp.contained_iff hs mapped).mp (hall elf loadBase hp)).2 x hst
      · exact (placeImage_changes hs _ elf hint guestBase hm).2.2 loadBase
          ((placeImage_alike (h.alike_mem m) elf hint guestBase).trans hp.placed)
    have hvacant : ∀ elf loadBase, s.ImageAt h contents hint guestBase elf loadBase →
        ∀ x, s.InImage elf loadBase x → s.Vacancy mapped elf guestBase x := fun elf loadBase hp =>
      ((hp.contained_iff hs mapped).mp (hall elf loadBase hp)).1
    refine ⟨fun x hx => ?_, hinside, hvacant⟩
    obtain ⟨elf, hread, hlow, m, hm⟩ := hx.reads
    refine ⟨elf, hread, ?_⟩
    cases hret : (s.placeImage h elf hint guestBase).ret with
    | ok loadBase =>
      have hp : s.ImageAt h contents hint guestBase elf loadBase := ⟨hread, hlow, hret⟩
      exact hvacant elf loadBase hp x (hinside elf loadBase hp x hx)
    | error _ =>
      have hret' := (placeImage_alike (h.alike_mem m) elf hint guestBase).trans hret
      rw [loadElf_refused hlow hret'] at hm
      obtain ⟨hun, hat, _⟩ := placeImage_changes hs _ elf hint guestBase hm
      exact ⟨fun h => (nomatch hret'.symm.trans (hat h)), hun⟩

/-- A program of one segment: `p_offset` and `p_vaddr` 0, in a file of 32KB. -/
def oneSegment (filesz memsz : UInt8) : FileBytes :=
  let header : List UInt8 :=
    [0x7f, 0x45, 0x4c, 0x46, 2, 1, 1, 0, 0, 0, 0, 0, 0, 0, 0, 0, 3, 0, 62, 0, 1, 0, 0, 0, 0, 0, 0,
      0, 0, 0, 0, 0, 64, 0, 0, 0, 0, 0, 0, 0, 0, 0, 0, 0, 0, 0, 0, 0, 0, 0, 0, 0, 64, 0, 56, 0, 1,
      0, 0, 0, 0, 0, 0, 0, 1, 0, 0, 0, 6, 0, 0, 0, 0, 0, 0, 0, 0, 0, 0, 0, 0, 0, 0, 0, 0, 0, 0, 0,
      0, 0, 0, 0, 0, 0, 0, 0, 0, filesz, 0, 0, 0, 0, 0, 0, 0, memsz, 0, 0, 0, 0, 0, 0]
  { size := 0x8000
    bytes := fun k => header.getD k 0xCC }

/-- One page is taken, the second of the arena's free ones. -/
def secondTaken : Out UInt64 := (new Geometry.oneMegabyte).allocate Host.fresh 0x4000 0x100014000 3

theorem listInv_secondTaken : secondTaken.space.ListInv :=
  (allocate_spec (listInv_new _) _ 3 ⟨by decide, by decide, by decide⟩).1

theorem loadElfFile_overruns :
    ¬ secondTaken.space.WritesTaken secondTaken.host ∅ (oneSegment 0x80 0x10) 0 0x100000000 ∧
    secondTaken.host.mem 0x100014000 = 0 ∧
    (secondTaken.space.loadElfFile secondTaken.host (oneSegment 0x80 0x10) 0
      0x100000000).host.mem 0x100014000 = 0xCC := by
  refine ⟨fun hw => ?_, by decide, by decide⟩
  obtain ⟨elf, _, hvac⟩ := hw.writes 0x100014000 ⟨fun _ => 0, by decide⟩
  have hat : ¬ elf.AtHost 0x100000000 := fun hat => absurd hat.2 (by decide)
  exact absurd (hvac.2 hat).2.2 (by decide)

theorem loadElfFile_writesTaken_secondTaken :
    secondTaken.space.WritesTaken secondTaken.host ∅ (oneSegment 0x10 0x20) 0 0x100000000 := by
  rw [loadElfFile_writesTaken_iff listInv_secondTaken]
  intro elf loadBase hp
  have heq := hp.headers
  injection heq with heq
  subst heq
  exact ⟨fun hwrap => absurd hwrap.1 (by decide), by decide⟩

end GuestAddressSpace

end Fathom
