import Fathom.Proofs.Spares
import Fathom.Proofs.Edits

/-!
# The heap and the mappings

The heap is one committed reservation, and only the part below the break is in use.
`brk` moves the break inside it and zeroes what it adds, asking the arena nothing. That
is sound as long as the reservation stays the heap's.
-/

namespace Fathom

open Lib Spanned GuestAddressSpace MemoryCall

namespace Sys

variable {x : Sys} {r : MmapRequest} {live : Set Nat}

/-! ## The reservation -/

def heap (x : Sys) : Set Nat :=
  {y | x.process.syscalls.heapBase.toNat + x.process.syscalls.guestBase.toNat ≤ y ∧
    y < x.process.syscalls.heapLimit.toNat + x.process.syscalls.guestBase.toNat}

/-- The reservation is the heap's alone, up to a boundary between host pages. -/
structure HeapWhole (x : Sys) : Prop extends x.HeapWithin 0 where
  aligned : x.space.page ∣ x.process.syscalls.heapLimit.toNat + x.process.syscalls.guestBase.toNat
  owned : ∀ y ∈ x.heap, Covers x.space.committed y

variable {x' : Sys}

theorem heap_of_numbers (h : x'.numbers = x.numbers) : x'.heap = x.heap := by
  obtain ⟨hoff, hbase, hlimit, _⟩ := numbers_fields h
  unfold heap
  rw [hoff, hbase, hlimit]

section

variable (h : x.HeapWhole)
include h

theorem HeapWhole.of_numbers (hnumbers : x'.numbers = x.numbers)
    (hgeo : x'.space.toGeometry = x.space.toGeometry)
    (howned : ∀ y ∈ x.heap, Covers x'.space.committed y) : x'.HeapWhole := by
  refine ⟨h.toHeapWithin.of_numbers hgeo hnumbers, ?_, ?_⟩
  · obtain ⟨hoff, _, hlimit, _⟩ := numbers_fields hnumbers
    rw [hgeo, hlimit, hoff]
    exact h.aligned
  · rw [heap_of_numbers hnumbers]
    exact howned

theorem HeapWhole.toHost {v : UInt64} (hv : v.toNat ≤ x.process.syscalls.heapLimit.toNat) :
    (x.toHost v).toNat = v.toNat + x.process.syscalls.guestBase.toNat := by
  exact toHost_heap h.stop hv

theorem HeapWhole.fits : x.HeapFits := by
  have hroom := x.space.limit_add_page
  have hpage := Nat.le_of_dvd x.space.page_pos x.space.guestPage_dvd_page
  have hstop := h.stop
  have hlimit := h.toHost le_rfl
  exact .inr (by omega)

theorem HeapWhole.inside {y : Nat} (hy : y ∈ x.heap) : x.space.base.toNat ≤ y ∧ y < x.space.limit :=
  ⟨h.start.trans hy.1, Nat.lt_of_lt_of_le hy.2 h.stop⟩

end

structure Shrinks (x x' : Sys) : Prop where
  inv : x'.space.ListInv
  geometry : x'.space.toGeometry = x.space.toGeometry
  offset : x'.process.syscalls.guestBase = x.process.syscalls.guestBase
  heap : x'.HeapWhole
  less : x'.heap ⊆ x.heap
  covers : ∀ y, Covers x.space.committed y → y ∉ x.heap ∨ y ∈ x'.heap → Covers x'.space.committed y
  mem : ∀ y, x'.space.OffLimits y → x'.host.mem y = x.host.mem y

theorem Shrinks.refl (hs : x.space.ListInv) (h : x.HeapWhole) : x.Shrinks x :=
  ⟨hs, rfl, rfl, h, fun _ => id, fun _ hc _ => hc, fun _ _ => rfl⟩

theorem HeapWhole.shrinkHeapBelow (h : x.HeapWhole) (hs : x.space.ListInv) (a : UInt64) :
    x.Shrinks (x.shrinkHeapBelow a) := by
  rcases shrinkHeapBelow_cases x a with heq | ⟨start, _, ⟨hused, hdvd⟩, hlt, hcases⟩
  · rw [heq]
    exact Shrinks.refl hs h
  · have hstart := h.start
    have hgrown := h.grown
    have hroom := h.room
    have hstop := h.stop
    obtain ⟨hused, hsum, hnew, hpos⟩ := shrink_numbers hstop hroom hused hlt
    generalize x.toHost x.process.syscalls.heapLimit - start = n at *
    have hin : x.Inside start n := ⟨by omega, by omega⟩
    have hrel := releases hs hpos hin
    have hok : (x.release start n).1 = true := (release_spec hs x.host (by omega) hin.1 hin.2).1
    rcases hcases with ⟨hno, _⟩ | ⟨_, heq⟩
    · exact nomatch hno.symm.trans hok
    · have hpages : ∀ y, y ∈ guestPages start n ↔ start.toNat ≤ y ∧
          y < x.process.syscalls.heapLimit.toNat + x.process.syscalls.guestBase.toNat := by
        intro y
        have hgrain := x.space.guestPage_dvd_page
        have hlen : 4096 ∣ n.toNat := by
          rw [show n.toNat = x.process.syscalls.heapLimit.toNat +
            x.process.syscalls.guestBase.toNat - start.toNat by omega]
          exact Nat.dvd_sub (Nat.dvd_trans hgrain h.aligned) (Nat.dvd_trans hgrain hdvd)
        rw [mem_guestPages (Nat.dvd_trans hgrain hdvd), roundUp_of_dvd (by omega) hlen]
        omega
      have hspace : ((x.release start n).2.withHeapLimit
          (x.process.syscalls.heapLimit - n)).space = (x.release start n).2.space := rfl
      have hhost : ((x.release start n).2.withHeapLimit
          (x.process.syscalls.heapLimit - n)).host = (x.release start n).2.host := rfl
      have hcalls : ((x.release start n).2.withHeapLimit
          (x.process.syscalls.heapLimit - n)).process.syscalls =
          { x.process.syscalls with heapLimit := x.process.syscalls.heapLimit - n } := rfl
      rw [heq]
      generalize (x.release start n).2.withHeapLimit (x.process.syscalls.heapLimit - n) = x'
        at hspace hhost hcalls ⊢
      have hheap : ∀ y, y ∈ x'.heap ↔
          x.process.syscalls.heapBase.toNat + x.process.syscalls.guestBase.toNat ≤ y ∧
            y < start.toNat := by
        intro y
        unfold heap
        rw [hcalls, Set.mem_ofPred_eq]
        dsimp only
        omega
      have hless : x'.heap ⊆ x.heap := by
        intro y hy
        have := (hheap y).mp hy
        exact ⟨this.1, by omega⟩
      have hcov : ∀ y, Covers x.space.committed y → y ∉ x.heap ∨ y ∈ x'.heap →
          Covers x'.space.committed y := by
        intro y hc hy
        rw [hspace]
        refine (hrel.covers y).mpr ⟨hc, fun hg => ?_⟩
        have hin := (hpages y).mp hg
        rcases hy with hout | hkept
        · exact hout ⟨by omega, hin.2⟩
        · have := (hheap y).mp hkept
          omega
      have hgeo : x'.space.toGeometry = x.space.toGeometry := by
        rw [hspace]
        exact hrel.geometry
      refine ⟨?_, hgeo, by rw [hcalls], ?_, hless, hcov, fun y hy => ?_⟩
      · rw [hspace]
        exact hrel.inv
      · refine ⟨h.toHeapWithin.limited hgeo hcalls (by omega) (by omega), ?_, fun y hy =>
          hcov y (h.owned y (hless hy)) (.inr hy)⟩
        rw [hgeo, hcalls, hnew]
        exact hdvd
      · rw [hhost]
        rw [hspace] at hy
        exact hrel.kept y hy

/-! ## The live mappings -/

def bytesOf (a n : UInt64) : Set Nat := {y | a.toNat ≤ y ∧ y < a.toNat + n.toNat}

structure Keeps (x : Sys) (live : Set Nat) : Prop where
  inv : x.space.ListInv
  heap : x.HeapWhole
  held : x.Held live
  apart : ∀ y ∈ live, y ∉ x.heap

/-- No byte of `live` changes or is uncommitted. -/
def Untouched (live : Set Nat) (x x' : Sys) : Prop :=
  ∀ y ∈ live, x'.host.mem y = x.host.mem y ∧
  (Covers x.space.committed y → Covers x'.space.committed y)

theorem Untouched.trans {x₁ x₂ : Sys} (h₁ : Untouched live x x₁) (h₂ : Untouched live x₁ x₂) :
    Untouched live x x₂ :=
  fun y hy => ⟨(h₂ y hy).1.trans (h₁ y hy).1, fun hc => (h₂ y hy).2 ((h₁ y hy).2 hc)⟩

theorem Keeps.mono (h : x.Keeps live) {fewer : Set Nat} (hsub : fewer ⊆ live) : x.Keeps fewer :=
  ⟨h.inv, h.heap, fun y hy => h.held y (hsub hy), fun y hy => h.apart y (hsub hy)⟩

theorem Keeps.all_held (h : x.Keeps live) : x.Held (live ∪ x.heap) := by
  intro y hy
  rcases hy with hlive | hheap
  · exact h.held y hlive
  · exact .inl (h.heap.owned y hheap)

theorem Keeps.spares {T : Set Nat} (h : x.Keeps live) (hsp : Spares (live ∪ x.heap) T x x') :
    x'.Keeps live := by
  refine ⟨hsp.inv, h.heap.of_numbers hsp.numbers hsp.geometry fun y hy =>
    hsp.covers y (.inr hy) (h.heap.owned y hy),
    fun y hy => hsp.held h.all_held y (.inl hy), ?_⟩
  rw [heap_of_numbers hsp.numbers]
  exact h.apart

structure Gains (x : Sys) (live new : Set Nat) (x' : Sys) : Prop where
  keeps : x'.Keeps (live ∪ new)
  fresh : ∀ y ∈ new, y ∈ live → y < x.space.base.toNat ∨ x.space.limit ≤ y

theorem Keeps.serves {T : Set Nat} {n : UInt64} {out : SysOut} (h : x.Keeps live)
    (hserves : Serves (live ∪ x.heap) T x n out) {answer : UInt64} (hok : out.ret = .ok answer) :
    x.Gains live (bytesOf (x.toHost answer) n) out.sys := by
  have hkeeps := h.spares hserves.spares
  have hheap := heap_of_numbers hserves.spares.numbers
  refine ⟨⟨hkeeps.inv, hkeeps.heap, fun y hy => ?_, fun y hy hin => ?_⟩, fun y hnew hlive =>
    (hserves.given answer hok y hnew.1 hnew.2).2.resolve_left fun hnot => hnot (.inl hlive)⟩
  · rcases hy with hlive | hnew
    · exact hkeeps.held y hlive
    · exact (hserves.given answer hok y hnew.1 hnew.2).1
  · rcases hy with hlive | hnew
    · exact hkeeps.apart y hlive hin
    · rw [hheap] at hin
      have harena := h.heap.inside hin
      rcases (hserves.given answer hok y hnew.1 hnew.2).2 with hnot | hout
      · exact hnot (.inr hin)
      · omega

theorem Shrinks.keeps (h : x.Shrinks x') (hk : x.Keeps live) :
    x'.Keeps live ∧ Untouched live x x' := by
  have hcov : ∀ y ∈ live, Covers x.space.committed y → Covers x'.space.committed y :=
    fun y hy hc => h.covers y hc (.inl (hk.apart y hy))
  have hheld : x'.Held live := hk.held.of_covers h.geometry hcov
  exact ⟨⟨h.inv, h.heap, hheld, fun y hy hin => hk.apart y hy (h.less hin)⟩,
    fun y hy => ⟨h.mem y (hheld y hy), hcov y hy⟩⟩

theorem Keeps.doMmap_free (h : x.Keeps live) (hfree : ¬ (r.fixed = true ∧ x.mmapAddress r ≠ 0))
    (hfit : x.MmapFits r) (hdisplay : x.DisplayApart r) :
    Untouched live x (x.doMmap r).sys ∧ (x.doMmap r).sys.Keeps live ∧
    ∀ answer, (x.doMmap r).ret = .ok answer →
    x.Gains live (bytesOf (x.toHost answer) r.length) (x.doMmap r).sys := by
  by_cases hlen : r.length = 0
  · unfold Sys.doMmap
    rw [if_pos hlen]
    exact ⟨fun y _ => ⟨rfl, id⟩, h, fun _ hok => (nomatch hok)⟩
  · have hpos : 0 < r.length.toNat := toNat_pos hlen
    have hroom : x.Shrinks (x.mmapRoom r) := by
      unfold mmapRoom
      split
      · exact h.heap.shrinkHeapBelow h.inv _
      · exact Shrinks.refl h.inv h.heap
    obtain ⟨hkeeps, hsame⟩ := hroom.keeps h
    have hserves := Serves.doMmap_free hkeeps.inv hkeeps.all_held (Set.Subset.refl _)
      hroom.geometry hfree hpos hfit hdisplay
    have htoHost : ∀ a, (x.mmapRoom r).toHost a = x.toHost a := fun a => by
      unfold Sys.toHost LinuxSyscalls.toHost
      rw [hroom.offset]
    refine ⟨hsame.trans fun y hy => ⟨hserves.spares.mem y (.inl hy),
      hserves.spares.covers y (.inl hy)⟩, hkeeps.spares hserves.spares, fun answer hok => ?_⟩
    obtain ⟨hall, hfresh⟩ := hkeeps.serves hserves hok
    rw [htoHost, hroom.geometry] at hfresh
    rw [htoHost] at hall
    exact ⟨hall, hfresh⟩

theorem Keeps.doMmap_fixed (h : x.Keeps live) (hfixed : r.fixed = true ∧ x.mmapAddress r ≠ 0)
    (hfit : x.MmapFits r) (hdisplay : x.DisplayApart r) (hgrant : x.FixedGranted r)
    (hheap : ∀ y ∈ guestPages (x.mmapAddress r) r.length, y ∉ x.heap)
    (hopen : Unopened r → ∀ y ∈ guestPages (x.mmapAddress r) r.length, y ∉ live) :
    (∀ e, (x.doMmap r).ret = .error e → (x.doMmap r).sys.Keeps live) ∧
    ∀ answer, (x.doMmap r).ret = .ok answer → x.Gains (live \ guestPages (x.mmapAddress r) r.length)
        (bytesOf (x.toHost answer) r.length) (x.doMmap r).sys := by
  by_cases hlen : r.length = 0
  · unfold Sys.doMmap
    rw [if_pos hlen]
    exact ⟨fun _ _ => h, fun _ hok => (nomatch hok)⟩
  · have hpos : 0 < r.length.toNat := toNat_pos hlen
    refine ⟨fun e herr => ?_, fun answer hok => ?_⟩
    · by_cases hno : Unopened r
      · exact h.spares (Serves.doMmap_fixed h.inv h.all_held hfixed hpos hfit hgrant hdisplay
          fun y hy hin => hin.elim (hopen hno y hy) (hheap y hy)).spares
      · exact h.spares (Spares.fixed_error h.inv _ hfixed hpos hfit hgrant hno herr)
    · have hrest : x.Keeps (live \ guestPages (x.mmapAddress r) r.length) := h.mono fun _ hy => hy.1
      exact hrest.serves (Serves.doMmap_fixed h.inv hrest.all_held hfixed hpos hfit hgrant hdisplay
        fun y hy hin => hin.elim (fun hl => hl.2 hy) (hheap y hy)) hok

theorem Keeps.munmap (h : x.Keeps live) {a n : UInt64}
    (hfit : (x.toHost a).toNat + n.toNat + 4096 ≤ 2 ^ 64)
    (hheap : ∀ y ∈ guestPages (x.toHost a) n, y ∉ x.heap) :
    (∀ e, (x.munmap a n).ret = .error e → (x.munmap a n).sys.Keeps live) ∧
    (x.munmap a n).sys.Keeps (live \ guestPages (x.toHost a) n) := by
  refine ⟨fun e herr => h.spares (Spares.munmap_error h.inv _ hfit herr), ?_⟩
  have hrest : x.Keeps (live \ guestPages (x.toHost a) n) := h.mono fun _ hy => hy.1
  exact hrest.spares (Spares.munmap h.inv hrest.all_held hfit
    fun y hy hin => hin.elim (fun hl => hl.2 hy) (hheap y hy))

/-! ## The break -/

/-- What a `brk` writes: from the old break up to the new, if that is further up
and the heap has it. -/
def brkWrites (x : Sys) (requested : UInt64) : Set Nat :=
  {y | x.process.syscalls.heapBase ≠ 0 ∧ requested ≠ 0 ∧
    x.process.syscalls.heapBase ≤ requested ∧ requested ≤ x.process.syscalls.heapLimit ∧
    x.process.syscalls.heapBreak < requested ∧
    y ∈ bytesOf (x.toHost x.process.syscalls.heapBreak)
      (requested - x.process.syscalls.heapBreak)}

def withHeapBreak (x : Sys) (heapBreak : UInt64) : Sys :=
  { x with process := { x.process with
      syscalls := { x.process.syscalls with heapBreak } } }

theorem doBrk_cases (x : Sys) (requested : UInt64) :
    ((x.doBrk requested).sys = x ∧ x.brkWrites requested = ∅) ∨
      (x.process.syscalls.heapBase.toNat ≤ requested.toNat ∧
        requested.toNat ≤ x.process.syscalls.heapLimit.toNat ∧
        ∃ h : Host, (x.doBrk requested).sys = { x with host := h }.withHeapBreak requested ∧
          ∀ y, (y ∈ x.brkWrites requested → h.mem y = 0) ∧
            (y ∉ x.brkWrites requested → h.mem y = x.host.mem y)) := by
  unfold doBrk
  dsimp only
  split
  next h0 => exact .inl ⟨rfl, Set.eq_empty_of_forall_notMem fun y hy => hy.1 h0⟩
  next hbase =>
    split
    next h0 => exact .inl ⟨rfl, Set.eq_empty_of_forall_notMem fun y hy => hy.2.1 h0⟩
    next hne =>
      split
      next hout =>
        refine .inl ⟨rfl, Set.eq_empty_of_forall_notMem fun y hy => ?_⟩
        obtain ⟨_, _, hlow, hhigh, _⟩ := hy
        rw [UInt64.lt_iff_toNat_lt, gt_iff_lt, UInt64.lt_iff_toNat_lt] at hout
        rw [UInt64.le_iff_toNat_le] at hlow hhigh
        omega
      next hin =>
        rw [not_or, UInt64.not_lt, UInt64.not_lt] at hin
        refine .inr ⟨UInt64.le_iff_toNat_le.mp hin.1, UInt64.le_iff_toNat_le.mp hin.2, ?_⟩
        split
        next hmore =>
          refine ⟨_, rfl, fun y => ?_⟩
          have hiff : y ∈ x.brkWrites requested ↔ Host.inSpan
              (x.toHost x.process.syscalls.heapBreak)
              (requested - x.process.syscalls.heapBreak) y = true := by
            rw [Host.inSpan_iff]
            exact ⟨fun h => h.2.2.2.2.2, fun h => ⟨hbase, hne, hin.1, hin.2, hmore, h⟩⟩
          rw [hiff]
          exact ⟨fun h => if_pos h, fun h => if_neg h⟩
        next hless =>
          exact ⟨x.host, rfl, fun y => ⟨fun h => absurd h.2.2.2.2.1 hless, fun _ => rfl⟩⟩

theorem HeapWhole.brkWrites (h : x.HeapWhole) {requested : UInt64} {y : Nat}
    (hy : y ∈ x.brkWrites requested) : y ∈ x.heap := by
  obtain ⟨_, _, _, hlimit, hless, hspan⟩ := hy
  rw [UInt64.le_iff_toNat_le] at hlimit
  have hgrown := h.grown
  have hroom := h.room
  unfold bytesOf at hspan
  rw [Set.mem_ofPred_eq, h.toHost hroom, toNat_sub_of_le hless.le] at hspan
  exact ⟨by omega, by omega⟩

theorem Keeps.doBrk (h : x.Keeps live) (requested : UInt64) :
    (x.doBrk requested).sys.Keeps live ∧ Untouched live x (x.doBrk requested).sys := by
  rcases doBrk_cases x requested with ⟨heq, _⟩ | ⟨hlow, hhigh, _, heq, hmem⟩
  · rw [heq]
    exact ⟨h, fun _ _ => ⟨rfl, id⟩⟩
  · rw [heq]
    refine ⟨⟨h.inv, ?_, h.held, h.apart⟩, fun y hy => ⟨?_, id⟩⟩
    · exact ⟨⟨h.heap.start, hlow, hhigh, h.heap.stop⟩, h.heap.aligned, h.heap.owned⟩
    · exact (hmem y).2 fun hw => h.apart y hy (h.heap.brkWrites hw)

/-! ## Runs -/

structure Watched where
  sys : Sys
  live : Set Nat

end Sys

open Sys

/-- What is mapped after a call: what an `mmap` answers with is, what it was
placed on is not, and neither is what a `munmap` took. A call that fails changes
nothing of that. -/
def MemoryCall.live (w : Watched) : MemoryCall → Set Nat
  | .mmap r =>
    match (w.sys.doMmap r).ret with
    | .error _ => w.live
    | .ok answer =>
      (if r.fixed then w.live \ guestPages (w.sys.mmapAddress r) r.length else w.live) ∪
        bytesOf (w.sys.toHost answer) r.length
  | .munmap address length =>
    match (w.sys.munmap address length).ret with
    | .error _ => w.live
    | .ok _ => w.live \ guestPages (w.sys.toHost address) length
  | _ => w.live

def MemoryCall.watch (w : Watched) (c : MemoryCall) : Watched := ⟨(c.run w.sys).sys, c.live w⟩

/-- A call that leaves the heap its reservation. No sum on the way wraps; what is
mapped at a given address, or unmapped, is none of the heap; the host makes
usable what is mapped there, and the file is open where something live is; and
no `mprotect` of nothing splits a range. -/
def MemoryCall.HeapSafe (w : Watched) : MemoryCall → Prop
  | .mmap r => w.sys.MmapFits r ∧ w.sys.DisplayApart r ∧
      (r.fixed = true ∧ w.sys.mmapAddress r ≠ 0 → w.sys.FixedGranted r ∧
        (∀ y ∈ guestPages (w.sys.mmapAddress r) r.length, y ∉ w.sys.heap) ∧
        (Unopened r → ∀ y ∈ guestPages (w.sys.mmapAddress r) r.length, y ∉ w.live))
  | .munmap address length =>
    (w.sys.toHost address).toNat + length.toNat + 4096 ≤ 2 ^ 64 ∧
      ∀ y ∈ guestPages (w.sys.toHost address) length, y ∉ w.sys.heap
  | .mprotect address length _ =>
    (w.sys.toHost address).toNat + length.toNat + w.sys.space.page ≤ 2 ^ 64 ∧
      ¬ w.sys.space.Degenerate (w.sys.toHost address) length
  | .mremap _ _ _ _ => False
  | .brk _ => True

def MemoryCall.Plain : MemoryCall → Prop
  | .mremap _ _ _ _ => False
  | _ => True

def Sys.WatchedRun (ok : Watched → MemoryCall → Prop) : Watched → Watched → Prop :=
  Relation.ReflTransGen fun w w' => ∃ c : MemoryCall, ok w c ∧ w' = c.watch w

theorem MemoryCall.watch_keeps {w : Watched} (h : w.sys.Keeps w.live) {c : MemoryCall}
    (hc : c.HeapSafe w) : (c.watch w).sys.Keeps (c.watch w).live := by
  cases c with
  | mmap r =>
    obtain ⟨hfit, hdisplay, hplaced⟩ := hc
    change (w.sys.doMmap r).sys.Keeps (live w (.mmap r))
    unfold live
    dsimp only
    by_cases hfixed : r.fixed = true ∧ w.sys.mmapAddress r ≠ 0
    · obtain ⟨hgrant, hheap, hopen⟩ := hplaced hfixed
      obtain ⟨herr, hok⟩ := h.doMmap_fixed hfixed hfit hdisplay hgrant hheap hopen
      cases hret : (w.sys.doMmap r).ret with
      | error e => exact herr e hret
      | ok answer =>
        rw [if_pos hfixed.1]
        exact (hok answer hret).keeps
    · obtain ⟨_, herr, hok⟩ := h.doMmap_free hfixed hfit hdisplay
      cases hret : (w.sys.doMmap r).ret with
      | error e => exact herr
      | ok answer =>
        refine (hok answer hret).keeps.mono (Set.union_subset_union_left _ fun y hy => ?_)
        split at hy
        · exact hy.1
        · exact hy
  | munmap a n =>
    obtain ⟨hfit, hheap⟩ := hc
    obtain ⟨herr, hok⟩ := h.munmap hfit hheap
    change (w.sys.munmap a n).sys.Keeps (live w (.munmap a n))
    unfold live
    dsimp only
    cases hret : (w.sys.munmap a n).ret with
    | error e => exact herr e hret
    | ok _ => exact hok
  | mprotect a n p => exact h.spares (Spares.mprotect h.inv _ p hc.1 hc.2)
  | mremap a _ _ _ => exact hc.elim
  | brk requested => exact (h.doBrk requested).1

namespace Sys

variable {x : Sys}

/-- A process as it starts: the heap is reserved, and none of it in use. -/
structure HeapStarts (x : Sys) : Prop where
  inv : x.space.ListInv
  heap : x.HeapWhole
  empty : x.process.syscalls.heapBreak = x.process.syscalls.heapBase

theorem heapStarts (hs : x.space.ListInv) {n hint : UInt64} (p : Prot)
    (hfit : x.space.AllocFits n hint) (hn : x.space.page ∣ n.toNat)
    (hne : (x.allocate n hint p).1 ≠ 0)
    (hnumbered : x.process.syscalls.guestBase.toNat ≤ (x.allocate n hint p).1.toNat) :
    ((x.allocate n hint p).2.initialiseHeap (x.toGuest (x.allocate n hint p).1) n).HeapStarts := by
  have halloc := allocates hs p hfit
  have hcalls : (x.allocate n hint p).2.process.syscalls = x.process.syscalls := rfl
  generalize x.allocate n hint p = out at *
  obtain ⟨hlow, hhigh⟩ := halloc.inside hne
  have hlimit := out.2.space.limit_lt
  have hpage : out.2.space.page = x.space.page := congrArg Geometry.page halloc.geometry
  have hbase : (x.toGuest out.1).toNat =
      out.1.toNat - x.process.syscalls.guestBase.toNat := toNat_sub_of_le hnumbered
  have hstop : (x.toGuest out.1 + n).toNat = (x.toGuest out.1).toNat + n.toNat :=
    toNat_add_of_lt (by omega)
  have hnumbers : (out.2.initialiseHeap (x.toGuest out.1) n).process.syscalls =
      x.process.syscalls.initialiseHeap (x.toGuest out.1) n :=
    congrArg (LinuxSyscalls.initialiseHeap · (x.toGuest out.1) n) hcalls
  have hspace : (out.2.initialiseHeap (x.toGuest out.1) n).space = out.2.space := rfl
  have hend : (x.toGuest out.1 + n).toNat + x.process.syscalls.guestBase.toNat =
      out.1.toNat + n.toNat := by omega
  refine ⟨by rw [hspace]; exact halloc.inv, ⟨⟨?_, ?_, ?_, ?_⟩, ?_, fun y hy => ?_⟩,
    by rw [hnumbers]; rfl⟩
  · rw [hspace, hnumbers]
    change _ ≤ (x.toGuest out.1).toNat + x.process.syscalls.guestBase.toNat
    omega
  · rw [hnumbers]
    exact le_rfl
  · rw [hnumbers]
    change (x.toGuest out.1).toNat ≤ (x.toGuest out.1 + n).toNat
    omega
  · rw [hspace, hnumbers]
    change (x.toGuest out.1 + n).toNat + x.process.syscalls.guestBase.toNat ≤ _
    omega
  · rw [hspace, hnumbers, hpage]
    change x.space.page ∣ (x.toGuest out.1 + n).toNat + x.process.syscalls.guestBase.toNat
    rw [hend]
    exact Nat.dvd_add (halloc.aligned hne) hn
  · unfold heap at hy
    rw [hnumbers] at hy
    obtain ⟨h1, h2⟩ : (x.toGuest out.1).toNat + x.process.syscalls.guestBase.toNat ≤ y ∧
      y < (x.toGuest out.1 + n).toNat + x.process.syscalls.guestBase.toNat := hy
    have hup := le_roundUp x.space.page_pos n.toNat
    rw [hspace]
    exact (halloc.some hne y).mpr (.inr ⟨by omega, by omega⟩)

theorem WatchedRun.keeps {x₀ : Sys} {w : Watched} (hstart : x₀.HeapStarts)
    (hrun : WatchedRun HeapSafe ⟨x₀, ∅⟩ w) : w.sys.Keeps w.live := by
  induction hrun with
  | refl =>
    exact ⟨hstart.inv, hstart.heap, fun y hy => absurd hy (Set.notMem_empty y),
      fun y hy => absurd hy (Set.notMem_empty y)⟩
  | tail _ hstep ih =>
    obtain ⟨c, hc, rfl⟩ := hstep
    exact watch_keeps ih hc

/-- In every run that leaves the heap its reservation, neither a `brk` nor an
`mmap` without `MAP_FIXED` changes or uncommits a byte of a live mapping, and
what a `brk` writes is committed. -/
theorem live_mappings_untouched {x₀ : Sys} {w : Watched} (hstart : x₀.HeapStarts)
    (hrun : WatchedRun HeapSafe ⟨x₀, ∅⟩ w) :
    (∀ requested, Untouched w.live w.sys (w.sys.doBrk requested).sys ∧
        ∀ y ∈ w.sys.brkWrites requested, Covers w.sys.space.committed y) ∧
      ∀ r : MmapRequest, r.fixed = false → (MemoryCall.mmap r).HeapSafe w →
        Untouched w.live w.sys (w.sys.doMmap r).sys := by
  have hkeeps := hrun.keeps hstart
  refine ⟨fun requested => ⟨(hkeeps.doBrk requested).2, fun y hy =>
    hkeeps.heap.owned y (hkeeps.heap.brkWrites hy)⟩, fun r hfree hsafe => ?_⟩
  obtain ⟨hfit, hdisplay, _⟩ := hsafe
  refine (hkeeps.doMmap_free (fun hfixed => ?_) hfit hdisplay).1
  exact nomatch hfree.symm.trans hfixed.1

def unused : Sys :=
  ⟨⟨false, 0, GuestAddressSpace.new Geometry.oneMegabyte, .new false 0,
    LinuxSyscalls.new_agrees⟩, .empty, Host.fresh⟩

def twoPageHeap : Sys := (unused.allocate 0x8000 0 3).2.initialiseHeap 0x100010000 0x8000

theorem heapStarts_twoPageHeap : twoPageHeap.HeapStarts :=
  heapStarts (x := unused) (listInv_new _) 3 ⟨by decide, by decide, by decide⟩
    (by decide) (by decide) (by decide)

def fixedSevens : MmapRequest :=
  ⟨0x100014000, 0x4000, 3, 0x12,
    some ⟨[], false, ⟨[], 1, 1, 0x4000, fun _ => 7, fun _ => 0x4000⟩⟩, 0, 0⟩

theorem brk_writes_tail : twoPageHeap.HeapStarts ∧
      (∃ w, WatchedRun (fun _ c => c.Plain) ⟨twoPageHeap, ∅⟩ w ∧ 0x100014000 ∈ w.live ∧
        w.sys.host.mem 0x100014000 = 7 ∧ (w.sys.doBrk 0x100018000).sys.host.mem 0x100014000 = 0) ∧
      ∃ w, WatchedRun (fun _ c => c.Plain) ⟨twoPageHeap, ∅⟩ w ∧
        0x100014000 ∈ w.sys.brkWrites 0x100018000 ∧ ¬ Covers w.sys.space.committed 0x100014000 := by
  refine ⟨heapStarts_twoPageHeap, ⟨_, .single ⟨.mmap fixedSevens, trivial, rfl⟩, ?_, ?_, ?_⟩,
    ⟨_, .single ⟨.munmap 0x100014000 0x4000, trivial, rfl⟩, ?_, ?_⟩⟩
  · exact .inr (show 0x100014000 ≤ 0x100014000 ∧ 0x100014000 < 0x100018000 by decide)
  · rfl
  · rfl
  · exact ⟨by decide, by decide, by decide, by decide, by decide,
      show (0x100010000) ≤ 0x100014000 ∧ 0x100014000 < 0x100018000 by decide⟩
  · exact tagAt_eq_none.mp (by rfl)

/-- The same page where there is room: the heap grows to its end beside it. -/
def anywhereSevens : MmapRequest := { fixedSevens with address := 0, flags := 0x02 }

theorem live_mappings_untouched_sevens : twoPageHeap.HeapStarts ∧
      (twoPageHeap.doMmap anywhereSevens).ret = .ok 0x100018000 ∧
      (((twoPageHeap.doMmap anywhereSevens).sys.doBrk 0x100018000).sys.host.mem 0x100018000 =
        (twoPageHeap.doMmap anywhereSevens).sys.host.mem 0x100018000) := by
  have hsafe : (mmap anywhereSevens).HeapSafe ⟨twoPageHeap, ∅⟩ := by
    refine ⟨⟨heapStarts_twoPageHeap.heap.fits, fun h => absurd h (by decide), fun _ => by decide⟩,
      ?_, fun h => absurd h.1 (by decide)⟩
    rintro _ ⟨⟩ h
    cases h
  have hlive : 0x100018000 ∈ (mmap anywhereSevens).live ⟨twoPageHeap, ∅⟩ :=
    .inr (show (0x100018000) ≤ 0x100018000 ∧ 0x100018000 < 0x10001c000 by decide)
  refine ⟨heapStarts_twoPageHeap, by rfl, ?_⟩
  exact (((live_mappings_untouched heapStarts_twoPageHeap (.single ⟨_, hsafe, rfl⟩)).1
    0x100018000).1 0x100018000 hlive).1

end Sys

end Fathom
