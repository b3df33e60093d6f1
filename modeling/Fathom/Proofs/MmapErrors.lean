import Fathom.Proofs.FileCopy

/-!
# An mmap that fails

`DoMmap` places its mapping before it looks at the descriptor, so most of its error
returns have something to undo, and what they do about it is one `Release` of the
interval asked for. That is not what was done.
-/

namespace Fathom

open Lib Spanned GuestAddressSpace Geometry

def guestPages (a n : UInt64) : Set Nat :=
  {y | roundDown 4096 a.toNat ≤ y ∧ y < roundUp 4096 (a.toNat + n.toNat)}

theorem SharedTable.replaceSlots_mem (b e page : UInt64) (slots : List SharedMappingSlot) :
    ∀ h : Host, (replaceSlots b e page slots h).2.mem = h.mem := by
  induction slots with
  | nil =>
    intro h
    rfl
  | cons slot _ ih =>
    intro h
    rw [replaceSlots]
    split
    · exact ih h
    · dsimp only
      generalize maskDown page (wordMax b slot.begin) = low
      generalize wordMin (maskUp page (wordMin e slot.stop)) slot.stop = high
      have hmem : (h.mprotect low (high - low) protRead).2.mem = h.mem := Host.mprotect_mem _ _ _ _
      generalize (h.mprotect low (high - low) protRead).2 = h₁ at *
      split
      next hok =>
        rw [ih, ← hmem]
        funext y
        change (if Host.inSpan low (high - low) y then h₁.mem y
          else (h₁.mapReadWrite low (high - low)).2.mem y) = h₁.mem y
        split
        · rfl
        next hout => exact Host.mapReadWrite_mem hout
      next hno =>
        rw [ih, ← hmem]
        exact Host.mapReadWrite_refused (Bool.eq_false_iff.mpr hno)

theorem SharedTable.replaceSlots_missed {b e page : UInt64} {slots : List SharedMappingSlot}
    (hmiss : ∀ slot ∈ slots, slot.misses b e = true) (h : Host) :
    replaceSlots b e page slots h = (slots, h) := by
  induction slots with
  | nil => rfl
  | cons slot _ ih =>
    rw [replaceSlots, if_pos (hmiss slot List.mem_cons_self),
      ih fun slot hslot => hmiss slot (List.mem_cons_of_mem _ hslot)]

namespace Sys

variable {x : Sys} {r : MmapRequest}

theorem replaceShared_missed {b e : UInt64} (hmiss : ∀ slot ∈ x.shared.slots,
    slot.misses b e = true) : (x.replaceSharedMappingsIn b e).shared = x.shared := by
  unfold replaceSharedMappingsIn SharedTable.replaceSharedMappingsIn
  split
  · rfl
  · rw [SharedTable.replaceSlots_missed hmiss]

theorem replaceShared_mem (x : Sys) (b e : UInt64) :
    (x.replaceSharedMappingsIn b e).host.mem = x.host.mem := by
  unfold replaceSharedMappingsIn SharedTable.replaceSharedMappingsIn
  split
  · rfl
  · exact SharedTable.replaceSlots_mem _ _ _ _ _

/-! ## One call of the arena's, on any host -/

def books (x : Sys) : SharedTable × UInt64 × List (UInt64 × UInt64) × List ImageRegion :=
  (x.shared, x.process.syscalls.heapLimit, x.process.syscalls.mappings,
    x.process.syscalls.imageData)

structure Releases (x : Sys) (a n : UInt64) (x' : Sys) : Prop where
  inv : x'.space.ListInv
  geometry : x'.space.toGeometry = x.space.toGeometry
  books : x'.books = x.books
  covers : ∀ y, Covers x'.space.committed y ↔ Covers x.space.committed y ∧ y ∉ guestPages a n
  kept : ∀ y, x'.space.OffLimits y → x'.host.mem y = x.host.mem y

variable {a n : UInt64}

theorem releases (hs : x.space.ListInv) (hpos : 0 < n.toNat) (hin : x.Inside a n) :
    x.Releases a n (x.release a n).2 := by
  obtain ⟨_, hinv, hgeo, hlay⟩ := release_spec hs x.host hpos hin.1 hin.2
  refine ⟨hinv, hgeo, rfl, (released_of_layout hlay).committed,
    fun y hy => release_kept hs x.host hpos hin.1 hin.2 ?_⟩
  change Covers (x.space.release x.host a n).space.committed y ∨
    y < (x.space.release x.host a n).space.base.toNat ∨
    (x.space.release x.host a n).space.limit ≤ y at hy
  rw [hgeo] at hy
  exact hy

structure Allocates (x : Sys) (n : UInt64) (out : UInt64 × Sys) : Prop where
  inv : out.2.space.ListInv
  geometry : out.2.space.toGeometry = x.space.toGeometry
  books : out.2.books = x.books
  kept : ∀ y, x.space.OffLimits y → out.2.host.mem y = x.host.mem y
  none : out.1 = 0 → ∀ y, Covers out.2.space.committed y ↔ Covers x.space.committed y
  aligned : out.1 ≠ 0 → x.space.page ∣ out.1.toNat
  inside : out.1 ≠ 0 → out.2.Inside out.1 n
  room : out.1 ≠ 0 → x.space.base.toNat ≤ out.1.toNat ∧
    out.1.toNat + roundUp x.space.page n.toNat ≤ x.space.limit
  free : out.1 ≠ 0 → ∀ y, out.1.toNat ≤ y → y < out.1.toNat + roundUp x.space.page n.toNat →
    ¬ Covers x.space.committed y
  some : out.1 ≠ 0 → ∀ y, Covers out.2.space.committed y ↔ Covers x.space.committed y ∨
    (out.1.toNat ≤ y ∧ y < out.1.toNat + roundUp x.space.page n.toNat)

theorem covers_iff_of_attr {s s' : GuestAddressSpace} {y : Nat}
    (h : s'.layout.attr y = s.layout.attr y) : Covers s'.committed y ↔ Covers s.committed y := by
  rw [← tagAt_isSome, ← tagAt_isSome]
  exact iff_of_eq (congrArg (fun t => Option.isSome t = true) h)

theorem allocates (hs : x.space.ListInv) {hint : UInt64} (p : Prot)
    (hfit : x.space.AllocFits n hint) : x.Allocates n (x.allocate n hint p) := by
  have hkept := fun y hy => allocate_kept (x := y) hs x.host p hfit hy
  obtain ⟨hinv, hgeo, hcases⟩ := allocate_spec hs x.host p hfit
  have hout : x.allocate n hint p = ((x.space.allocate x.host n hint p).ret,
      x.withSpace (x.space.allocate x.host n hint p).space
        (x.space.allocate x.host n hint p).host) := rfl
  rw [hout]
  generalize x.space.allocate x.host n hint p = out at *
  rcases hcases with ⟨h0, hlay⟩ | ⟨a, m, hm, ht, hret, hlay⟩
  · refine ⟨hinv, hgeo, rfl, hkept, fun _ y => covers_iff_of_attr ?_, ?_, ?_, ?_, ?_, ?_⟩
    · rw [← congrFun (congrArg Layout.attr hlay) y]
      rfl
    all_goals exact fun hne => absurd h0 hne
  · have harena := ht.mem_arena hs
    have hup := le_roundUp x.space.page_pos n.toNat
    have hbase := x.space.base_pos
    have hne : a ≠ 0 := ne_zero_of_toNat_pos (by omega)
    rw [hm] at hlay
    refine ⟨hinv, hgeo, rfl, hkept, fun h0 => absurd (hret.symm.trans h0) hne, fun _ => ?_,
      fun _ => ?_, fun _ => ?_, fun _ y h1 h2 => ?_, fun _ y => ?_⟩
    · rw [hret]
      exact ht.start
    · change out.space.base.toNat ≤ out.ret.toNat ∧ out.ret.toNat + n.toNat ≤ out.space.limit
      rw [hgeo, hret]
      omega
    · dsimp only
      rw [hret]
      omega
    · dsimp only at h1 h2
      rw [hret] at h1 h2
      exact hs.not_covers (ht.free y h1 (by omega))
    · have hattr := congrFun (congrArg Layout.attr hlay) y
      change Covers out.space.committed y ↔ _
      rw [← tagAt_isSome, ← tagAt_isSome, hret]
      rw [Layout.place_attr] at hattr
      change tagAt out.space.committed y = _ at hattr
      rw [hattr]
      split
      next hin => simp [hin]
      next hin =>
        simp only [hin, or_false]
        rfl

/-! ## Placing -/

/-- Everything committed before is committed still, with its value. -/
structure Retains (x x' : Sys) : Prop where
  covers : ∀ y, Covers x.space.committed y → Covers x'.space.committed y
  kept : ∀ y, Covers x.space.committed y → x'.host.mem y = x.host.mem y

theorem shrinkHeapBelow_eq (hs : x.space.ListInv) (hheap : x.HeapFits)
    (hsame : (x.shrinkHeapBelow a).process.syscalls.heapLimit = x.process.syscalls.heapLimit) :
    x.shrinkHeapBelow a = x := by
  rcases shrinkHeapBelow_cases x a with heq | ⟨start, hne, _, hlt, hcases⟩
  · exact heq
  · have hlim := hheap.resolve_left hne
    have hsub := toNat_sub_of_le hlt.le
    generalize x.toHost x.process.syscalls.heapLimit - start = n at *
    rcases hcases with ⟨hno, heq⟩ | ⟨_, heq⟩
    · rw [heq]
      rcases release_cases (a := start) (n := n) (by omega) with
        hrefused | ⟨hpos, hlo, hhi⟩
      · unfold Sys.release
        rw [hrefused]
        rfl
      · exact absurd ((release_spec hs x.host hpos hlo hhi).1.symm.trans hno) (by simp)
    · rw [heq] at hsame
      change x.process.syscalls.heapLimit - n = x.process.syscalls.heapLimit at hsame
      have hword := congrArg UInt64.toNat hsame
      rw [UInt64.toNat_sub] at hword
      omega

/-- The request says where to go. -/
def Pinned (x : Sys) (r : MmapRequest) : Prop := r.fixed = true ∧ x.mmapAddress r ≠ 0

/-- A hint is not in the part of the heap that could be given up for it. -/
def SparesHeap (x : Sys) (hint : UInt64) : Prop :=
  x.process.syscalls.heapBase = 0 ∨ hint = 0 ∨
  hint < maskUp x.space.pageSize (x.toHost x.process.syscalls.heapBreak) ∨
  x.toHost x.process.syscalls.heapLimit ≤ hint

theorem SparesHeap.shrink {hint : UInt64} (h : x.SparesHeap hint) :
    (if hint != 0 then x.shrinkHeapBelow hint else x) = x := by
  split
  next hne =>
    by_cases hbase : x.process.syscalls.heapBase = 0
    · exact if_pos hbase
    · exact (if_neg hbase).trans (if_pos ((h.resolve_left hbase).resolve_left (by simpa using hne)))
  · rfl

/-- The bytes that are committed for a request at `a`. -/
def hostPages (x : Sys) (r : MmapRequest) (a : UInt64) : Set Nat :=
  {y | roundDown x.space.page a.toNat ≤ y ∧ y < roundUp x.space.page (a.toNat + r.length.toNat)}

structure PlacesAny (x : Sys) (r : MmapRequest) (placed : Option UInt64) (x' : Sys) : Prop where
  inv : x'.space.ListInv
  geometry : x'.space.toGeometry = x.space.toGeometry
  lists : x'.process.syscalls.mappings = x.process.syscalls.mappings ∧
    x'.process.syscalls.imageData = x.process.syscalls.imageData
  retains : x'.process.syscalls.heapLimit = x.process.syscalls.heapLimit → x.Retains x'
  none : placed = none → x'.process.syscalls.heapLimit = x.process.syscalls.heapLimit →
    ∀ y, Covers x'.space.committed y → Covers x.space.committed y
  inside : ∀ a, placed = some a → x'.Inside a r.length
  fresh : ∀ a, placed = some a → ¬ x.Pinned r →
    x'.process.syscalls.heapLimit = x.process.syscalls.heapLimit →
    x.space.page ∣ a.toNat ∧ ∀ y ∈ guestPages a r.length, ¬ Covers x.space.committed y
  told : ∀ a, placed = some a → x.Pinned r → a = x.mmapAddress r
  grown : ∀ a, placed = some a → x'.process.syscalls.heapLimit = x.process.syscalls.heapLimit →
    ∀ y, Covers x'.space.committed y → Covers x.space.committed y ∨ y ∈ x.hostPages r a
  quiet : (x.Pinned r → ∀ slot ∈ x.shared.slots, slot.misses (x.mmapAddress r)
      (x.mmapAddress r + r.length) = true) → (¬ x.Pinned r → x.SparesHeap (x.mmapAddress r)) →
    x'.shared = x.shared ∧ x'.process.syscalls.heapLimit = x.process.syscalls.heapLimit

theorem PlacesAny.notified {placed : Option UInt64} {x' : Sys} (hp : x.PlacesAny r placed x')
    (b e : UInt64) : x.PlacesAny r placed (x'.notifyContentsReplaced b e) := by
  unfold notifyContentsReplaced
  split
  · obtain ⟨hgeo, _, hcom, _⟩ := x'.space.notify_fields b e
    have hcommitted : (x'.withSpace (x'.space.notify b e) x'.host).space.committed =
        x'.space.committed := hcom
    refine ⟨hp.inv.notify b e, hgeo.trans hp.geometry, hp.lists, fun h => ⟨?_, ?_⟩, ?_,
      fun a ha => ?_, hp.fresh, hp.told, ?_, hp.quiet⟩
    · rw [hcommitted]
      exact (hp.retains h).covers
    · exact (hp.retains h).kept
    · rw [hcommitted]
      exact hp.none
    · have hin := hp.inside a ha
      change (x'.space.notify b e).base.toNat ≤ _ ∧ _ ≤ (x'.space.notify b e).limit
      rw [hgeo]
      exact hin
    · rw [hcommitted]
      exact hp.grown
  · exact hp

theorem Retains.refl (x : Sys) : x.Retains x := ⟨fun _ => id, fun _ _ => rfl⟩

theorem placesAny_fixed (hs : x.space.ListInv) (hfixed : r.fixed = true)
    (haddr : x.mmapAddress r ≠ 0) (hpos : 0 < r.length.toNat)
    (hin : x.Inside (x.mmapAddress r) r.length) : x.PlacesAny r (x.mmapPlace r (x.mmapAddress r)).1
      (x.mmapPlace r (x.mmapAddress r)).2.2 := by
  unfold mmapPlace
  rw [if_pos (by simp [hfixed, haddr]), if_neg (by simp [contains_of_inside hin])]
  have hmem₁ := replaceShared_mem x (x.mmapAddress r) (x.mmapAddress r + r.length)
  have hshared₁ := @replaceShared_missed x (x.mmapAddress r) (x.mmapAddress r + r.length)
  have hproc₁ : (x.replaceSharedMappingsIn (x.mmapAddress r)
      (x.mmapAddress r + r.length)).process = x.process := rfl
  dsimp only
  generalize x.replaceSharedMappingsIn (x.mmapAddress r) (x.mmapAddress r + r.length) = x₁ at *
  have hspace₁ : x₁.space = x.space := congrArg GuestProcess.space hproc₁
  have hpinned : x.Pinned r := ⟨hfixed, haddr⟩
  have hfix := commitFixed_spec hs x₁.host (r.recorded ||| kGuestProtWrite) hpos hin.1 hin.2
  have hkept := fun y hy => commitFixed_kept (x := y) hs x₁.host (r.recorded ||| kGuestProtWrite)
    hpos hin.1 hin.2 hy
  have hfailed := commitFixed_failed hs x₁.host (r.recorded ||| kGuestProtWrite) hpos hin.1 hin.2
  unfold Sys.commitFixed
  rw [hspace₁]
  generalize x.space.commitFixed x₁.host (x.mmapAddress r) r.length
    (r.recorded ||| kGuestProtWrite) = out at *
  have hcalls : x₁.process.syscalls = x.process.syscalls := congrArg GuestProcess.syscalls hproc₁
  have hlists : (x₁.withSpace out.space out.host).process.syscalls.mappings =
      x.process.syscalls.mappings ∧ (x₁.withSpace out.space out.host).process.syscalls.imageData =
      x.process.syscalls.imageData :=
    ⟨congrArg LinuxSyscalls.mappings hcalls, congrArg LinuxSyscalls.imageData hcalls⟩
  have hretains : x.Retains (x₁.withSpace out.space out.host) :=
    ⟨fun y hy => hfix.covers hy, fun y hy => (hkept y hy).trans (congrFun hmem₁ y)⟩
  have hinside : (x₁.withSpace out.space out.host).Inside (x.mmapAddress r) r.length := by
    change out.space.base.toNat ≤ _ ∧ _ ≤ out.space.limit
    rw [hfix.geometry]
    exact hin
  have hgrown : ∀ y, Covers out.space.committed y → Covers x.space.committed y ∨
      y ∈ x.hostPages r (x.mmapAddress r) := fun y hy => by
    by_cases hy' : y ∈ x.hostPages r (x.mmapAddress r)
    · exact .inr hy'
    · exact .inl ((covers_iff_of_attr (hfix.outside y hy').1).mp hy)
  have hquiet : (x.Pinned r → _) → x₁.shared = x.shared ∧ x₁.process.syscalls.heapLimit =
      x.process.syscalls.heapLimit := fun hmiss =>
    ⟨hshared₁ (hmiss hpinned), congrArg LinuxSyscalls.heapLimit hcalls⟩
  split
  · have hplain : x.PlacesAny r (some (x.mmapAddress r)) (x₁.withSpace out.space out.host) := by
      refine ⟨hfix.inv, hfix.geometry, hlists, fun _ => hretains, fun h => (nomatch h), ?_,
        fun _ _ hnot => absurd hpinned hnot, ?_, ?_, fun hmiss _ => hquiet hmiss⟩
      · rintro _ ⟨⟩
        exact hinside
      · rintro _ ⟨⟩ _
        rfl
      · rintro _ ⟨⟩ _
        exact hgrown
    dsimp only
    split
    · exact hplain.notified _ _
    · exact hplain
  next hrefused =>
    refine ⟨hfix.inv, hfix.geometry, hlists, fun _ => hretains, fun _ _ y hy => ?_,
      fun _ h => (nomatch h), fun _ h => (nomatch h), fun _ h => (nomatch h),
      fun _ h => (nomatch h), fun hmiss _ => hquiet hmiss⟩
    exact (covers_iff_of_attr (hfailed (Bool.eq_false_iff.mpr hrefused) y)).mp hy

theorem shrinkHeapBelow_inv (hs : x.space.ListInv) (hheap : x.HeapFits) (a : UInt64) :
    (x.shrinkHeapBelow a).space.ListInv ∧
    (x.shrinkHeapBelow a).space.toGeometry = x.space.toGeometry ∧
    (x.shrinkHeapBelow a).process.syscalls.mappings = x.process.syscalls.mappings ∧
    (x.shrinkHeapBelow a).process.syscalls.imageData = x.process.syscalls.imageData := by
  refine shrinkHeapBelow_keeps (P := fun x' => x'.space.ListInv ∧ x'.space.toGeometry =
    x.space.toGeometry ∧ x'.process.syscalls.mappings = x.process.syscalls.mappings ∧
    x'.process.syscalls.imageData = x.process.syscalls.imageData) hheap a ⟨hs, rfl, rfl, rfl⟩
    (fun hfit => ?_) fun _ _ h => h
  obtain ⟨hinv, hgeo⟩ := release_inv hs x.host hfit
  exact ⟨hinv, hgeo, rfl, rfl⟩

theorem mem_guestPages (ha : 4096 ∣ a.toNat) {y : Nat} :
    y ∈ guestPages a n ↔ a.toNat ≤ y ∧ y < a.toNat + roundUp 4096 n.toNat := by
  unfold guestPages
  rw [roundDown_of_dvd ha, roundUp_add_of_dvd (by omega) ha]
  rfl

section

variable {page : Nat} (hpage : 4096 ∣ page) (hpos : 0 < page) (ha : page ∣ a.toNat)
include hpage hpos ha

theorem guestPages_subset {y : Nat} (hy : y ∈ guestPages a n) :
    a.toNat ≤ y ∧ y < a.toNat + roundUp page n.toNat := by
  have hround : roundUp 4096 n.toNat ≤ roundUp page n.toNat :=
    (roundUp_le_iff (by omega) (Nat.dvd_trans hpage (dvd_roundUp _ _))).mpr (le_roundUp hpos _)
  have hin := (mem_guestPages (Nat.dvd_trans hpage ha)).mp hy
  omega

theorem leftover_empty :
    {y | (a.toNat ≤ y ∧ y < a.toNat + roundUp page n.toNat) ∧ y ∉ guestPages a n} = ∅ ↔
    roundUp 4096 n.toNat = roundUp page n.toNat := by
  have hround : roundUp 4096 n.toNat ≤ roundUp page n.toNat :=
    (roundUp_le_iff (by omega) (Nat.dvd_trans hpage (dvd_roundUp _ _))).mpr (le_roundUp hpos _)
  simp only [Set.eq_empty_iff_forall_notMem, Set.mem_ofPred_eq,
    mem_guestPages (Nat.dvd_trans hpage ha)]
  constructor
  · intro h
    have := h (a.toNat + roundUp 4096 n.toNat)
    omega
  · omega

end

section

variable (hs : x.space.ListInv) (hfit : x.MmapFits r) (hpos : 0 < r.length.toNat)
include hs hfit hpos

theorem placesAny_free (hfree : ¬ x.Pinned r) :
    x.PlacesAny r (x.mmapPlace r (x.mmapAddress r)).1 (x.mmapPlace r (x.mmapAddress r)).2.2 := by
  obtain ⟨hlen, hreach⟩ := hfit.free (by
    rcases not_and_or.mp hfree with hno | hno
    · exact .inl (Bool.eq_false_iff.mpr hno)
    · exact .inr (not_not.mp hno))
  unfold mmapPlace
  rw [if_neg (by simpa [Pinned] using hfree)]
  dsimp only
  have hspared := fun h : x.SparesHeap (x.mmapAddress r) => h.shrink
  have hshrunk : ∃ x₁, (if x.mmapAddress r != 0 then x.shrinkHeapBelow (x.mmapAddress r)
      else x) = x₁ ∧ (x₁.space.ListInv ∧ x₁.space.toGeometry = x.space.toGeometry ∧
        x₁.process.syscalls.mappings = x.process.syscalls.mappings ∧
        x₁.process.syscalls.imageData = x.process.syscalls.imageData) ∧
      (x₁.process.syscalls.heapLimit = x.process.syscalls.heapLimit → x₁ = x) := by
    split
    · exact ⟨_, rfl, shrinkHeapBelow_inv hs hfit.heap _, shrinkHeapBelow_eq hs hfit.heap⟩
    · exact ⟨x, rfl, ⟨hs, rfl, rfl, rfl⟩, fun _ => rfl⟩
  obtain ⟨x₁, heq, ⟨hinv₁, hgeo₁, hmap₁, himg₁⟩, hsame⟩ := hshrunk
  rw [heq] at hspared ⊢
  have hpage : x₁.space.page = x.space.page := congrArg page hgeo₁
  have hroom : x₁.space.AllocFits r.length (x.mmapAddress r) :=
    ⟨hpos, by omega, by rw [hpage]; exact hreach⟩
  have halloc := allocates hinv₁ (r.recorded ||| kGuestProtWrite) hroom
  generalize x₁.allocate r.length (x.mmapAddress r) (r.recorded ||| kGuestProtWrite) = out at *
  obtain ⟨placed, x₂⟩ := out
  have hbooks := halloc.books
  unfold books at hbooks
  simp only [Prod.mk.injEq] at hbooks
  obtain ⟨hshared, hheap, hmap, himg⟩ := hbooks
  have hback : x₂.process.syscalls.heapLimit = x.process.syscalls.heapLimit → x₁ = x :=
    fun h => hsame (hheap.symm.trans h)
  have hretains : x₂.process.syscalls.heapLimit = x.process.syscalls.heapLimit → x.Retains x₂ := by
    intro h
    obtain rfl := hback h
    refine ⟨fun y hy => ?_, fun y hy => halloc.kept y (.inl hy)⟩
    by_cases h0 : placed = 0
    · exact (halloc.none h0 y).mpr hy
    · exact (halloc.some h0 y).mpr (.inl hy)
  have hquiet : (¬ x.Pinned r → x.SparesHeap (x.mmapAddress r)) → x₂.shared = x.shared ∧
      x₂.process.syscalls.heapLimit = x.process.syscalls.heapLimit := fun hspares => by
    obtain rfl := hspared (hspares hfree)
    exact ⟨hshared, hheap⟩
  split
  next h0 =>
    refine ⟨halloc.inv, halloc.geometry.trans hgeo₁, ⟨hmap.trans hmap₁, himg.trans himg₁⟩,
      hretains, fun _ h y hy => ?_, fun _ h => (nomatch h), fun _ h => (nomatch h),
      fun _ h => (nomatch h), fun _ h => (nomatch h), fun _ => hquiet⟩
    obtain rfl := hback h
    exact (halloc.none h0 y).mp hy
  next hne =>
    refine ⟨halloc.inv, halloc.geometry.trans hgeo₁, ⟨hmap.trans hmap₁, himg.trans himg₁⟩,
      hretains, fun h => (nomatch h), ?_, ?_, fun _ _ h => absurd h hfree, ?_, fun _ => hquiet⟩
    · rintro _ ⟨⟩
      exact halloc.inside hne
    · rintro _ ⟨⟩ _ h
      obtain rfl := hback h
      refine ⟨halloc.aligned hne, fun y hy => ?_⟩
      obtain ⟨h1, h2⟩ := guestPages_subset x₁.space.guestPage_dvd_page x₁.space.page_pos
        (halloc.aligned hne) hy
      exact halloc.free hne y h1 h2
    · rintro _ ⟨⟩ h y hy
      obtain rfl := hback h
      refine ((halloc.some hne y).mp hy).imp_right fun hin => ?_
      change roundDown _ _ ≤ y ∧ y < roundUp _ _
      rw [roundDown_of_dvd (halloc.aligned hne), roundUp_add_of_dvd x₁.space.page_pos
        (halloc.aligned hne)]
      exact hin

theorem placesAny :
    x.PlacesAny r (x.mmapPlace r (x.mmapAddress r)).1 (x.mmapPlace r (x.mmapAddress r)).2.2 := by
  by_cases hfixed : x.Pinned r
  · by_cases hc : x.space.contains (x.mmapAddress r) r.length = true
    · exact placesAny_fixed hs hfixed.1 hfixed.2 hpos
        (contains_mem (hfit.fixed hfixed.1 hfixed.2) hc)
    · have hplace : x.mmapPlace r (x.mmapAddress r) = (none, [], x) := by
        unfold mmapPlace
        rw [if_pos (by simp [hfixed.1, hfixed.2]), if_pos (by simp [hc])]
      rw [hplace]
      exact ⟨hs, rfl, ⟨rfl, rfl⟩, fun _ => Retains.refl x, fun _ _ _ => id,
        fun _ h => (nomatch h), fun _ h => (nomatch h), fun _ h => (nomatch h),
        fun _ h => (nomatch h), fun _ _ => ⟨rfl, rfl⟩⟩
  · exact placesAny_free hs hfit hpos hfixed

end

/-! ## Giving the place back -/

theorem viewAt_error {file : HostFile} {page base : UInt64} {e : Nat}
    (herr : (x.viewAt r file page base).ret = .error e) :
    r.offset % page ≠ 0 ∧ ∃ h : Host, h.mem = x.host.mem ∧
      (((({ x with host := h }.release base (r.length + r.offset % page)).2).allocate
        r.length 0 (r.recorded ||| kGuestProtWrite)).1 = 0 ∧ (x.viewAt r file page base).sys =
        ((({ x with host := h }.release base (r.length + r.offset % page)).2).allocate
          r.length 0 (r.recorded ||| kGuestProtWrite)).2) := by
  unfold viewAt at herr ⊢
  dsimp only at herr ⊢
  generalize viewLength page (r.offset % page + r.length) _ = rounded at herr ⊢
  have hmap : ∀ out : Bool × Host, out = (if rounded = 0 then (false, x.host)
      else x.host.mapFile page base rounded ⟨true, r.viewWritable⟩
        fun k => file.bytes ((r.offset - r.offset % page).toNat + k)) →
      out.1 = false → out.2.mem = x.host.mem := by
    rintro _ rfl hno
    split at hno
    · rw [if_pos ‹_›]
    next h0 =>
      rw [if_neg h0]
      unfold Host.mapFile at hno ⊢
      split at hno
      · cases hno
      · rw [if_neg ‹_›]
  specialize hmap _ rfl
  generalize (if rounded = 0 then (false, x.host)
    else x.host.mapFile page base rounded ⟨true, r.viewWritable⟩
      fun k => file.bytes ((r.offset - r.offset % page).toNat + k)) = out at *
  obtain ⟨ok, h⟩ := out
  cases ok with
  | true => cases herr
  | false =>
    by_cases h0 : r.offset % page = 0
    · rw [if_neg (not_not.mpr h0)] at herr
      exact nomatch ((mmapFinish_spec _ r _).1.symm.trans herr)
    · rw [if_neg Bool.false_ne_true, if_pos h0] at herr ⊢
      refine ⟨h0, h, hmap rfl, ?_⟩
      split at herr
      next h0 => exact ⟨h0, by rw [if_pos h0]⟩
      · exact nomatch ((mmapFinish_spec _ r _).1.symm.trans herr)

def Moved (x : Sys) (r : MmapRequest) (placed : UInt64) : Prop :=
  (∃ file, r.file = some file ∧ file.isFramebuffer = false) ∧ (x.viewPlace r placed).1 ≠ 0

structure Leftover (x : Sys) (r : MmapRequest) (left : Set Nat) : Prop where
  free : r.fixed = false
  empty : left = ∅ ↔ roundUp 4096 (r.length + r.offset % x.space.pageSize).toNat =
    roundUp x.space.page (r.length + r.offset % x.space.pageSize).toNat

structure GivesBack (x : Sys) (r : MmapRequest) (placed : UInt64) (x' : Sys) : Prop where
  books : x'.books = x.books
  kept : ∀ y, Covers x.space.committed y → y ∉ guestPages placed r.length →
    x'.host.mem y = x.host.mem y
  covers : ∃ left, (x.Moved r placed → x.Leftover r left) ∧
    (¬ x.Moved r placed → left = ∅) ∧ ∀ y, Covers x'.space.committed y ↔
      (Covers x.space.committed y ∧ y ∉ guestPages placed r.length) ∨ y ∈ left

variable {placed : UInt64}

theorem Releases.givesBack {x' : Sys} (h : x.Releases placed r.length x')
    (hstays : ¬ x.Moved r placed) : x.GivesBack r placed x' := by
  refine ⟨h.books, fun y hy hout => h.kept y (.inl ((h.covers y).mpr ⟨hy, hout⟩)), ∅,
    fun hmoved => absurd hmoved hstays, fun _ => rfl, fun y => ?_⟩
  rw [h.covers y]
  simp

/-! A place is taken and given back, and another is not to be had. -/

section Undone

variable {m : UInt64} {out last : UInt64 × Sys} {h : Host} {x₃ : Sys} (halloc : x.Allocates m out)
  (hne : out.1 ≠ 0) (hback : Releases { out.2 with host := h } out.1 m x₃)
  (hlast : x₃.Allocates r.length last) (hlast0 : last.1 = 0)
include halloc hne hback hlast hlast0

theorem Allocates.undone (y : Nat) : Covers last.2.space.committed y ↔ Covers x.space.committed y ∨
      ((out.1.toNat ≤ y ∧ y < out.1.toNat + roundUp x.space.page m.toNat) ∧
        y ∉ guestPages out.1 m) := by
  rw [hlast.none hlast0 y, hback.covers y]
  change Covers out.2.space.committed y ∧ _ ↔ _
  rw [halloc.some hne y]
  constructor
  · rintro ⟨h1 | h1, h2⟩
    · exact .inl h1
    · exact .inr ⟨h1, h2⟩
  · rintro (h1 | ⟨h1, h2⟩)
    · refine ⟨.inl h1, fun hin => ?_⟩
      obtain ⟨h2, h3⟩ := guestPages_subset x.space.guestPage_dvd_page x.space.page_pos
        (halloc.aligned hne) hin
      exact halloc.free hne y h2 h3 h1
    · exact ⟨.inr h1, h2⟩

theorem Allocates.undone_kept (hmem : h.mem = out.2.host.mem) {y : Nat}
    (hy : Covers x.space.committed y) : last.2.host.mem y = x.host.mem y := by
  have hy₃ := (hlast.none hlast0 y).mp ((halloc.undone hne hback hlast hlast0 y).mpr (.inl hy))
  calc last.2.host.mem y = x₃.host.mem y := hlast.kept y (.inl hy₃)
    _ = h.mem y := hback.kept y (.inl hy₃)
    _ = out.2.host.mem y := congrFun hmem y
    _ = x.host.mem y := halloc.kept y (.inl hy)

end Undone

section

variable (hs : x.space.ListInv) (hpos : 0 < r.length.toNat) (hin : x.Inside placed r.length)
include hs hpos hin

theorem mmapView_givesBack {file : OpenFile} (hfile : r.file = some file)
    (hfb : file.isFramebuffer = false) (hoff : r.offset % x.space.pageSize ≠ 0 →
      r.fixed = false ∧ r.length.toNat + 2 * x.space.page ≤ 2 ^ 64)
    {e : Nat} (herr : (x.mmapView r file.host placed).ret = .error e) :
    x.GivesBack r placed (x.mmapView r file.host placed).sys := by
  by_cases h0 : r.offset % x.space.pageSize = 0
  · rw [mmapView_eq, if_neg fun h => h.1 h0] at herr
    exact absurd h0 (viewAt_error herr).1
  obtain ⟨hfree, hlen⟩ := hoff h0
  have hphase := toNat_phase_lt (x := x) r
  have hsum := toNat_phased hlen
  have hrel := releases hs hpos hin
  have hpage : (x.release placed r.length).2.space.page = x.space.page :=
    congrArg page hrel.geometry
  have halloc := allocates (n := r.length + r.offset % x.space.pageSize) hrel.inv
    (r.recorded ||| kGuestProtWrite) (allocFits_unhinted (by omega) (by omega))
  have hmoved : x.Moved r placed ↔ (x.viewPlace r placed).1 ≠ 0 :=
    ⟨And.right, fun h => ⟨⟨file, hfile, hfb⟩, h⟩⟩
  rw [← viewPlace_phased placed h0] at halloc
  rw [mmapView_eq] at herr ⊢
  generalize hm : r.length + r.offset % x.space.pageSize = m at *
  generalize x.viewPlace r placed = out at *
  split at herr
  next hnone =>
    have hstays : ¬ x.Moved r placed := fun h => hmoved.mp h hnone.2
    rw [if_pos hnone]
    have hsame := halloc.none hnone.2
    refine Releases.givesBack ⟨halloc.inv, halloc.geometry.trans hrel.geometry,
      halloc.books.trans hrel.books, fun y => (hsame y).trans (hrel.covers y), fun y hy => ?_⟩
      hstays
    have hy' : (x.release placed r.length).2.space.OffLimits y := by
      unfold OffLimits at hy ⊢
      rw [halloc.geometry] at hy
      exact hy.imp_left (hsame y).mp
    exact (halloc.kept y hy').trans (hrel.kept y hy')
  next hgot =>
    have hne : out.1 ≠ 0 := fun h => hgot ⟨h0, h⟩
    rw [if_neg hgot]
    obtain ⟨_, h, hmem, hlast0, hsys⟩ := viewAt_error herr
    rw [hm] at hlast0 hsys
    rw [hsys]
    have hback := releases (x := { out.2 with host := h }) halloc.inv (by omega) (halloc.inside hne)
    have hpage₂ : ({ out.2 with host := h }.release out.1 m).2.space.page = x.space.page :=
      (congrArg page hback.geometry).trans
        ((congrArg page halloc.geometry).trans hpage)
    have hlast := allocates hback.inv (r.recorded ||| kGuestProtWrite)
      (allocFits_unhinted hpos (by omega))
    have halign := halloc.aligned hne
    rw [hpage] at halign
    have hfinal := halloc.undone hne hback hlast hlast0
    simp only [hrel.covers, hpage] at hfinal
    refine ⟨hlast.books.trans (hback.books.trans (halloc.books.trans hrel.books)),
      fun y hy hnot => ?_,
      {y | (out.1.toNat ≤ y ∧ y < out.1.toNat + roundUp x.space.page m.toNat) ∧
        y ∉ guestPages out.1 m}, fun _ => ⟨hfree, ?_⟩,
      fun hstays => absurd (hmoved.mpr hne) hstays, hfinal⟩
    · have hy₁ := (hrel.covers y).mpr ⟨hy, hnot⟩
      exact (halloc.undone_kept hne hback hlast hlast0 hmem hy₁).trans (hrel.kept y (.inl hy₁))
    · rw [hm]
      exact leftover_empty x.space.guestPage_dvd_page x.space.page_pos halign

theorem mmapDescriptor_givesBack
    (hlen : r.fixed = false → r.length.toNat + 2 * x.space.page ≤ 2 ^ 64) {e : Nat}
    (herr : (x.mmapDescriptor r placed).ret = .error e) :
    x.GivesBack r placed (x.mmapDescriptor r placed).sys := by
  have hrel := releases hs hpos hin
  unfold mmapDescriptor at herr ⊢
  cases hfile : r.file with
  | none =>
    refine hrel.givesBack fun hmoved => ?_
    obtain ⟨⟨_, hsome, _⟩, _⟩ := hmoved
    exact nomatch hfile.symm.trans hsome
  | some file =>
    rw [hfile] at herr
    dsimp only at herr ⊢
    by_cases hfb : file.isFramebuffer = true
    · rw [if_pos hfb] at herr ⊢
      have hstays : ¬ x.Moved r placed := by
        rintro ⟨⟨_, hsome, hno⟩, _⟩
        cases hfile.symm.trans hsome
        exact nomatch hfb.symm.trans hno
      split at herr
      next h0 =>
        rw [if_pos h0]
        exact hrel.givesBack hstays
      · cases herr
    · rw [if_neg hfb] at herr ⊢
      split at herr
      next hview =>
        rw [if_pos hview]
        refine mmapView_givesBack hs hpos hin hfile (Bool.eq_false_iff.mpr hfb) (fun h0 => ?_) herr
        have hfree : r.fixed = false := by simpa [h0] using (Bool.and_eq_true_iff.mp hview).2
        exact ⟨hfree, hlen hfree⟩
      · exact nomatch ((mmapFinish_spec _ r _).1.symm.trans herr)

end

/-! ## The whole call -/

/-- The guest could not tell that the call was made: the committed set and its
bytes, the table of views, the heap's limit and the two lists are what they
were. -/
structure Unchanged (x x' : Sys) : Prop where
  committed : ∀ y, Covers x'.space.committed y ↔ Covers x.space.committed y
  mem : ∀ y, Covers x.space.committed y → x'.host.mem y = x.host.mem y
  shared : x'.shared = x.shared
  heapLimit : x'.process.syscalls.heapLimit = x.process.syscalls.heapLimit
  mappings : x'.process.syscalls.mappings = x.process.syscalls.mappings
  imageData : x'.process.syscalls.imageData = x.process.syscalls.imageData

/-- A request that one release undoes, by the request and the state it finds: it is not to
write; what it says is to be replaced is no view, and has nothing in its own pages and
everything in the rest of the host's; or what it gets is whole pages, on both sizes of page,
and nothing of the heap's. -/
structure Undoable (x : Sys) (r : MmapRequest) : Prop where
  unnoted : r.recorded.has kGuestProtWrite = false
  missed : x.Pinned r → ∀ slot ∈ x.shared.slots,
    slot.misses (x.mmapAddress r) (x.mmapAddress r + r.length) = true
  pages : x.Pinned r → ∀ y ∈ x.hostPages r (x.mmapAddress r),
    (Covers x.space.committed y ↔ y ∉ guestPages (x.mmapAddress r) r.length)
  heap : ¬ x.Pinned r → x.SparesHeap (x.mmapAddress r)
  whole : ¬ x.Pinned r → roundUp 4096 r.length.toNat = roundUp x.space.page r.length.toNat
  phase : ¬ x.Pinned r → roundUp 4096 (r.length + r.offset % x.space.pageSize).toNat =
    roundUp x.space.page (r.length + r.offset % x.space.pageSize).toNat

/-- A place that was found for such a request is in nobody's pages, and nothing but them was
committed for it. -/
theorem Undoable.found {x₁ : Sys} {placed : UInt64} (hu : x.Undoable r)
    (hp : x.PlacesAny r (some placed) x₁) :
    (∀ y ∈ guestPages placed r.length, ¬ Covers x.space.committed y) ∧
    ∀ y, Covers x₁.space.committed y → y ∈ guestPages placed r.length ∨
    Covers x.space.committed y := by
  have hlimit := (hp.quiet hu.missed hu.heap).2
  have hdvd := x.space.guestPage_dvd_page
  have hpos := x.space.page_pos
  by_cases hpinned : x.Pinned r
  · obtain rfl := hp.told placed rfl hpinned
    refine ⟨fun y hy => ?_, fun y hy => ?_⟩
    · have hin : y ∈ x.hostPages r (x.mmapAddress r) := by
        refine ⟨Nat.le_trans ?_ hy.1, Nat.lt_of_lt_of_le hy.2 ?_⟩
        · exact (le_roundDown_iff (by omega) (hdvd.trans (dvd_roundDown _ _))).mpr
            (roundDown_le _ _)
        · exact (roundUp_le_iff (by omega) (hdvd.trans (dvd_roundUp _ _))).mpr (le_roundUp hpos _)
      exact fun hc => (hu.pages hpinned y hin).mp hc hy
    · refine (hp.grown _ rfl hlimit y hy).elim .inr fun hin => ?_
      by_cases hmine : y ∈ guestPages (x.mmapAddress r) r.length
      · exact .inl hmine
      · exact .inr ((hu.pages hpinned y hin).mpr hmine)
  · obtain ⟨halign, hfresh⟩ := hp.fresh placed rfl hpinned hlimit
    refine ⟨hfresh, fun y hy => (hp.grown _ rfl hlimit y hy).elim .inr fun hin => .inl ?_⟩
    have hin' : roundDown _ _ ≤ y ∧ y < roundUp _ _ := hin
    rw [roundDown_of_dvd halign, roundUp_add_of_dvd hpos halign, ← hu.whole hpinned] at hin'
    exact (mem_guestPages (Nat.dvd_trans hdvd halign)).mpr hin'

theorem noteImage_rest (x : Sys) (r : MmapRequest) (placed : UInt64) :
    let x' := x.mmapNoteImage r placed
    x'.process.syscalls.heapLimit = x.process.syscalls.heapLimit ∧
      x'.process.syscalls.mappings = x.process.syscalls.mappings := by
  unfold mmapNoteImage
  split
  · exact ⟨rfl, rfl⟩
  · exact ⟨rfl, rfl⟩

theorem noteImage_imageData_iff (hfile : r.anonymous = false) (placed : UInt64) :
    (x.mmapNoteImage r placed).process.syscalls.imageData = x.process.syscalls.imageData ↔
    r.recorded.has kGuestProtWrite = false := by
  unfold mmapNoteImage
  cases hw : r.recorded.has kGuestProtWrite with
  | false => simp
  | true =>
    rw [if_pos (by simp [hfile])]
    change x.process.syscalls.imageData ++ [_] = _ ↔ _
    simp

section

variable {x₁ x' : Sys} (hp : x.PlacesAny r (some placed) x₁) (hfile : r.anonymous = false)
  (hg : (x₁.mmapNoteImage r placed).GivesBack r placed x')
include hp hfile hg

theorem GivesBack.unchanged (hu : x.Undoable r) : x.Unchanged x' := by
  have hdata := (noteImage_imageData_iff (x := x₁) hfile placed).mpr hu.unnoted
  have hspace := mmapNoteImage_space x₁ r placed
  have hhost := mmapNoteImage_host x₁ r placed
  have hshared := mmapNoteImage_shared x₁ r placed
  obtain ⟨hheap, hmap⟩ := noteImage_rest x₁ r placed
  obtain ⟨hsh, hlimit⟩ := hp.quiet hu.missed hu.heap
  obtain ⟨hunowned, hwhole⟩ := hu.found hp
  have hretains := hp.retains hlimit
  have hbooks := hg.books
  unfold Sys.books at hbooks
  simp only [Prod.mk.injEq] at hbooks
  obtain ⟨hb1, hb2, hb3, hb4⟩ := hbooks
  have hkept := hg.kept
  obtain ⟨left, hleft, hnone, hcovers⟩ := hg.covers
  rw [hspace, hhost] at hkept
  rw [hspace] at hcovers
  generalize x₁.mmapNoteImage r placed = x₂ at *
  have hgeo : x₂.space.toGeometry = x.space.toGeometry := by
    rw [hspace]
    exact hp.geometry
  have hpage : x₂.space.page = x.space.page := congrArg page hgeo
  have hsize : x₂.space.pageSize = x.space.pageSize := congrArg pageSize hgeo
  have hempty : left = ∅ := by
    by_cases hm : x₂.Moved r placed
    · have hl := (hleft hm).empty
      rw [hsize, hpage] at hl
      exact hl.mpr (hu.phase fun hpinned => nomatch (hleft hm).free.symm.trans hpinned.1)
    · exact hnone hm
  rw [hempty] at hcovers
  refine ⟨fun y => ?_, fun y hy => ?_, hb1.trans (hshared.trans hsh),
    hb2.trans (hheap.trans hlimit), hb3.trans (hmap.trans hp.lists.1),
    hb4.trans (hdata.trans hp.lists.2)⟩
  · rw [hcovers y]
    constructor
    · rintro (⟨hy, hout⟩ | h)
      · exact (hwhole y hy).resolve_left hout
      · exact absurd h (Set.notMem_empty y)
    · exact fun hy => .inl ⟨hretains.covers y hy, fun hin => hunowned y hin hy⟩
  · exact (hkept y (hretains.covers y hy) fun hin => hunowned y hin hy).trans (hretains.kept y hy)

theorem GivesBack.shows (hnone : r.file = none) (hu : x.Unchanged x') :
    r.recorded.has kGuestProtWrite = false ∧
    (x.Pinned r → ∀ y ∈ guestPages (x.mmapAddress r) r.length, ¬ Covers x.space.committed y) := by
  have hbooks := congrArg (·.2.2.2) hg.books
  obtain ⟨_, -, hempty, hcovers⟩ := hg.covers
  refine ⟨?_, fun hpinned y hy hc => ?_⟩
  · refine (noteImage_imageData_iff (x := x₁) hfile placed).mp ?_
    exact hbooks.symm.trans (hu.imageData.trans hp.lists.2.symm)
  · obtain rfl := hp.told placed rfl hpinned
    have hstays : ¬ (x₁.mmapNoteImage r (x.mmapAddress r)).Moved r (x.mmapAddress r) :=
      fun ⟨⟨_, hsome, _⟩, _⟩ => nomatch hnone.symm.trans hsome
    rcases (hcovers y).mp ((hu.committed y).mpr hc) with ⟨-, hout⟩ | hleft
    · exact hout hy
    · rw [hempty hstays] at hleft
      exact hleft

end

/-- A descriptor nobody opened, mapped with a protection and flags. -/
def mapNothing (address : UInt64) (protection flags : UInt32) : MmapRequest :=
  ⟨address, 0x4000, protection, flags, none, 0, 0⟩

end Sys

end Fathom
