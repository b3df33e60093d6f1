import Fathom.Proofs.Chain
import Fathom.Proofs.Syscalls

/-!
# What a checked pointer is good for

`GuestPointer` answers with a pointer when every byte of the buffer is recorded
readable, and the system call then loads from it or stores into it.
-/

namespace Fathom

open Lib Spanned GuestAddressSpace Geometry Function

/-! ## What `Validate` saw -/

variable {s : GuestAddressSpace}

theorem validate_reads (hs : s.ListInv) {a n : UInt64} (hv : s.validate a n kGuestProtRead = true)
    (hn : n ≠ 0) (x : Nat) (hx : a.toNat ≤ x) (hx' : x < a.toNat + n.toNat) :
    ∃ t, s.layout.attr x = some t ∧ t.protection.has kGuestProtRead = true := by
  obtain ⟨_, hall⟩ := ((validate_iff hs.committed a n _).mp hv).resolve_left hn
  obtain ⟨r, hr, hhas, hprot⟩ := hall x hx hx'
  refine ⟨tag r, hs.committed.tagAt_eq_some.mpr ⟨r, hr, hhas, rfl⟩, ?_⟩
  change (r.protection &&& kGuestProtRead != 0) = true
  rw [hprot]
  rfl

/-- The four questions agree: the scan, the two bisections and the walk of
`Validate` all answer from the one range an address is in. -/
theorem lookups_agree (s : GuestAddressSpace) (hs : Wf s.committed) (a n : UInt64)
    (required : Prot) : (s.validate a n required = true ↔ n = 0 ∨ (a.toNat + n.toNat < 2 ^ 64 ∧
      ∀ x, a.toNat ≤ x → x < a.toNat + n.toNat →
        ∃ r ∈ s.committed, Has r x ∧ r.protection &&& required = required)) ∧
    (∀ r, s.rangeFor a = some r ↔ r ∈ s.committed ∧ Has r a.toNat) ∧
    ((s.rangeForNoWait true a).known = true ∧
      (s.rangeForNoWait true a).found = (s.rangeFor a).isSome ∧
      ∀ r, s.rangeFor a = some r → (s.rangeForNoWait true a).out = some r) ∧
    s.epochAt a = ((s.rangeFor a).map (·.epoch)).getD 0 :=
  ⟨validate_iff hs a n required, fun _ => rangeFor_eq_some hs a, ⟨rangeForNoWait_known s a,
    rangeForNoWait_found hs a, fun _ => rangeForNoWait_out hs⟩, epochAt_eq hs a⟩

theorem lookups_agree_onePage :
    let s := onePage.space
    let page : GuestRange := ⟨0x100010000, 0x4000, 3, 1, true⟩
    s.rangeFor 0x100011000 = some page ∧
    (s.rangeForNoWait true 0x100011000).out = some page ∧
    s.epochAt 0x100011000 = 1 ∧ s.validate 0x100011000 0x4000 1 = false := by
  intro s page
  obtain ⟨hvalid, hfor, ⟨_, _, hout⟩, hepoch⟩ :=
    lookups_agree s listInv_onePage.committed 0x100011000 0x4000 1
  have hr := (hfor page).mpr ⟨by decide, by decide, by decide⟩
  refine ⟨hr, hout _ hr, by rw [hepoch]; rfl, ?_⟩
  -- The buffer runs on past the page.
  rw [← Bool.not_eq_true, hvalid]
  rintro (h | ⟨_, hall⟩)
  · cases h
  · obtain ⟨r, hmem, hhas, _⟩ := hall 0x100014000 (by decide) (by decide)
    have hone : r = page := List.mem_singleton.mp hmem
    rw [hone] at hhas
    exact absurd hhas.2 (by decide)

/-! ## A fork with views in the parent -/

def Piece.Live (g : Geometry) (p : Piece) : Prop :=
  maskDown g.pageSize p.begin < maskUp g.pageSize p.stop

instance (g : Geometry) (p : Piece) : Decidable (p.Live g) := inferInstanceAs (Decidable (_ < _))

theorem remapAll_live (g : Geometry) (delta : UInt64) (ps : List Piece) :
    ∀ (c : GuestAddressSpace) (h : Host), remapAll g.pageSize delta ps c h =
      remapAll g.pageSize delta (ps.filter (·.Live g)) c h := by
  induction ps with
  | nil =>
    intro c h
    rfl
  | cons p ps ih =>
    intro c h
    rw [remapAll, ih]
    by_cases hlive : p.Live g
    · rw [List.filter_cons_of_pos (by simpa using hlive), remapAll]
    · rw [List.filter_cons_of_neg (by simpa using hlive)]
      have hskip : remap g.pageSize delta p c h = (c, h) := by
        unfold remap
        rw [if_pos (UInt64.not_lt.mp hlive)]
      rw [hskip]

variable {shared : List (UInt64 × UInt64)}

theorem mem_piecesFrom {finish : UInt64} {protection : Prot} {written : Bool} {p : Piece} :
    ∀ {cursor : UInt64}, p ∈ piecesFrom finish protection written cursor shared →
    cursor.toNat ≤ p.begin.toNat ∧ p.stop.toNat ≤ finish.toNat ∧
    p.protection = protection ∧ (written = true → p.written = true) := by
  induction shared with
  | nil =>
    intro cursor hp
    rw [piecesFrom, List.mem_singleton] at hp
    subst hp
    exact ⟨le_rfl, le_rfl, rfl, id⟩
  | cons _ _ ih =>
    intro cursor hp
    rw [piecesFrom] at hp
    split at hp
    · exact ih hp
    · rcases List.mem_cons.mp hp with rfl | hp
      · refine ⟨le_rfl, ?_, rfl, id⟩
        rw [toNat_wordMin]
        exact Nat.min_le_right _ _
      · rcases List.mem_cons.mp hp with rfl | hp
        · refine ⟨?_, ?_, rfl, fun _ => rfl⟩
          · rw [toNat_wordMax]
            exact Nat.le_max_left _ _
          · rw [toNat_wordMin]
            exact Nat.min_le_right _ _
        · obtain ⟨hbegin, hrest⟩ := ih hp
          rw [toNat_wordMax] at hbegin
          exact ⟨Nat.le_trans (Nat.le_max_left _ _) hbegin, hrest⟩

theorem GuestAddressSpace.Sane.livePiece (hs : s.Sane) {p : Piece}
    (hp : p ∈ (forkPieces s shared).filter (·.Live s.toGeometry)) :
    p.Inside s.toGeometry ∧ (p.protection.has kGuestProtWrite = true → p.written = true) ∧
    ∃ r ∈ s.committed, r.protection = p.protection ∧ ∀ k, p.low s.toGeometry ≤ k →
    k < p.high s.toGeometry → OnPages s.page r (s.base.toNat + k) := by
  obtain ⟨hmem, hlive⟩ := List.mem_filter.mp hp
  obtain ⟨r, hr, hpr⟩ := List.mem_flatMap.mp hmem
  obtain ⟨hbegin, hstop, hprot, hwritten⟩ := mem_piecesFrom hpr
  have hin := hs.inside hr
  have hroom := s.limit_add_page
  have hbase := hin.base
  have hlimit := hin.limit
  rw [show (pieceOf r).begin = r.begin from rfl] at hbase
  rw [show (pieceOf r).stop = Spanned.stop r from rfl] at hlimit
  obtain ⟨j, _, _, hj⟩ := s.page_pow
  have hpos : roundDown s.page p.begin.toNat < roundUp s.page p.stop.toNat := by
    have hlive' : p.Live s.toGeometry := by simpa using hlive
    unfold Piece.Live at hlive'
    rw [UInt64.lt_iff_toNat_lt, toNat_maskDown hj,
      toNat_maskUp hj (show p.stop.toNat + s.page ≤ 2 ^ 64 by omega)] at hlive'
    exact hlive'
  refine ⟨⟨by omega, hpos, by omega⟩, fun hw => hwritten (hs.range hr ?_), r, hr,
    hprot.symm, fun k h1 h2 => ?_⟩
  · rw [← hprot]
    exact hw
  · have hfits := (hs.inv.committed.proper r hr).fits
    have hlow : roundDown s.page (lo r) ≤ roundDown s.page p.begin.toNat :=
      roundDown_mono s.page_pos hbegin
    have hhigh : roundUp s.page p.stop.toNat ≤ roundUp s.page (hi r) :=
      roundDown_mono s.page_pos (by rw [← stop_toNat hfits]; omega)
    unfold Piece.low at h1
    unfold Piece.high at h2
    exact ⟨by omega, by omega⟩

theorem remapAll_attr {gp : Geometry} {ps : List Piece} :
    ∀ {c : GuestAddressSpace} (h : Host), Twin gp c.toGeometry → c.ListInv →
    (∀ p ∈ ps, p.Inside gp) → ∀ y t,
    (remapAll gp.pageSize (c.base - gp.base) ps c h).1.layout.attr y = some t →
    c.layout.attr y = some t ∨ ∃ p ∈ ps, t.protection = p.protection ∧
    c.base.toNat + p.low gp ≤ y ∧ y < c.base.toNat + p.high gp := by
  induction ps with
  | nil =>
    intro c h _ _ _ y t hy
    exact .inl hy
  | cons p ps ih =>
    intro c h ht hc hin y t hy
    have hp := hin p List.mem_cons_self
    have hps : ∀ q ∈ ps, q.Inside gp := fun q hq => hin q (List.mem_cons_of_mem _ hq)
    have hspace := remap_space h ht hc hp
    obtain ⟨hinv, hgeo⟩ := remap_keeps h ht hc hp
    rw [remapAll] at hy
    generalize remap gp.pageSize (c.base - gp.base) p c h = out at hspace hinv hgeo hy
    obtain ⟨c₁, h₁⟩ := out
    have hb : c₁.base = c.base := congrArg base hgeo
    rw [← hb] at hy
    rcases ih h₁ (by rw [hgeo]; exact ht) hinv hps y t hy with hold | ⟨q, hq, hrest⟩
    · rcases hspace with ⟨rfl, _⟩ | ⟨_, hadopt⟩
      · exact .inl hold
      · obtain ⟨_, w, _, _, hlay⟩ := hadopt.placed
        rw [hlay, Layout.place_attr] at hold
        split at hold
        next hspan =>
          cases hold
          exact .inr ⟨p, List.mem_cons_self, rfl, hspan⟩
        · exact .inl hold
    · rw [hb] at hrest
      exact .inr ⟨q, List.mem_cons_of_mem _ hq, hrest⟩

theorem Piece.hostProtection_of_write (p : Piece) (hw : p.protection.has kGuestProtWrite = true)
    (hwritten : p.written = true) : p.hostProtection = protReadWrite := by
  rw [hostProtection, hwritten, remappedProtection, hw, Bool.or_true]
  rfl

def GuestAddressSpace.OpenPages (s : GuestAddressSpace) : Prop :=
  ∀ q ∈ s.committed, ∀ r ∈ s.committed, ∀ x, OnPages s.page q x → OnPages s.page r x →
  q.protection.has kGuestProtRead = true → r.protection.has kGuestProtWrite = true

theorem GuestAddressSpace.Fine.fork {h : Host} (hf : s.Fine h) {g : Geometry}
    (ht : Twin s.toGeometry g) (hopen : s.OpenPages) (is32bit : Bool)
    (shared : List (UInt64 × UInt64)) :
    (forkInto s is32bit g shared h).1.Fine (forkInto s is32bit g shared h).2 ∧
    (forkInto s is32bit g shared h).1.toGeometry = g ∧ ∀ y, ¬ (g.base.toNat ≤ y ∧ y < g.limit) →
    (forkInto s is32bit g shared h).2.prot y = h.prot y := by
  have hfresh := fresh_newArena is32bit g
  have hmap := hf.succeeds.mapFresh g.base g.size
  have hpieces : ∀ p ∈ (forkPieces s shared).filter (·.Live s.toGeometry), _ :=
    fun p hp => hf.sane.livePiece hp
  unfold forkInto copyAddressSpace
  rw [remapAll_live s.toGeometry]
  generalize (forkPieces s shared).filter (·.Live s.toGeometry) = ps at hpieces
  have hsane := remapAll_sane (h.mapFreshAnonymous g.base g.size).2 ht hfresh.sane
    fun p hp => ⟨(hpieces p hp).1, (hpieces p hp).2.1⟩
  have hhost := remapAll_host ht hfresh.sane.inv hmap.2 fun p hp => (hpieces p hp).1
  have hattr := remapAll_attr (h.mapFreshAnonymous g.base g.size).2 ht hfresh.sane.inv
    fun p hp => (hpieces p hp).1
  generalize remapAll s.pageSize ((newArena is32bit g).base - s.base) ps (newArena is32bit g)
    (h.mapFreshAnonymous g.base g.size).2 = out at hsane hhost hattr ⊢
  obtain ⟨c, h'⟩ := out
  have hgeo : c.toGeometry = g := hsane.2
  refine ⟨⟨hsane.1, hhost.succeeds, fun y t hy hr z hz => ?_⟩, hgeo, fun y hy => ?_⟩
  · rcases hattr y t hy with hold | ⟨p, hp, hprot, hlow, hhigh⟩
    · cases hold
    · obtain ⟨hin, _, q, hq, hqp, hqpages⟩ := hpieces p hp
      rw [hgeo] at hz
      have hpage : g.page = s.page := ht.page_eq
      have hround := hin.rounded
      have hspan := page_subset_span g.page_pos
        (Nat.dvd_add g.base_aligned (by rw [hpage]; exact hround.lowPage))
        (Nat.dvd_add g.base_aligned (by rw [hpage]; exact hround.highPage)) ⟨hlow, hhigh⟩ hz
      obtain ⟨k, rfl⟩ := Nat.exists_eq_add_of_le (Nat.le_trans (Nat.le_add_right _ _) hspan.1)
      have hk1 : p.low s.toGeometry ≤ k := by omega
      have hk2 : k < p.high s.toGeometry := by omega
      -- Whichever piece set the page's protection last, its range can be written.
      obtain ⟨p', hp', ⟨h1, h2⟩, hset⟩ := hhost.prot p hp k hk1 hk2
      obtain ⟨_, hflag, r, hr', hrp, hrpages⟩ := hpieces p' hp'
      have hw := hopen q hq r hr' _ (hqpages k hk1 hk2) (hrpages k h1 h2)
        (by rw [hqp, ← hprot]; exact hr)
      rw [hrp] at hw
      exact hset.trans (p'.hostProtection_of_write hw (hflag hw))
  · rw [hhost.protKept y fun p hp k hk hin => hy ?_, hf.succeeds.mapFresh_prot, if_neg]
    · rw [Host.inSpan_iff]
      exact hy
    · have hsize := (hpieces p hp).1.rounded.size
      have hroom := ht.room
      have hlim : g.limit = g.base.toNat + g.size.toNat := rfl
      change y = g.base.toNat + k at hk
      omega

/-! ## The session -/

namespace Sys

variable {x : Sys} (hf : x.Fine)
include hf

theorem Fine.mremap {a oldSize newSize : UInt64} (flags : UInt64)
    (hnew : newSize.toNat + x.space.page ≤ 2 ^ 64)
    (hold : (x.toHost a).toNat + oldSize.toNat + 4096 ≤ 2 ^ 64) :
    x.Carries (x.mremap a oldSize newSize flags).sys := by
  unfold Sys.mremap
  dsimp only
  split
  · exact hf.refl
  next hgrows =>
    rw [UInt64.not_le, UInt64.lt_iff_toNat_lt] at hgrows
    have halloc := hf.allocate (allocFits_unhinted (by omega) hnew)
      (show (kGuestProtRead ||| kGuestProtWrite).has kGuestProtWrite = true by decide)
    split
    · exact hf.refl
    · split
      · exact halloc
      · have hstored {y : Sys} (h : x.Carries y) (b n : UInt64) (bytes : Nat → UInt8) :
            x.Carries (y.store b n bytes) := h.trans (Fine.store h.fine b n bytes)
        have hreleased {y : Sys} (h : x.Carries y) : x.Carries (y.release (x.toHost a) oldSize).2 :=
          h.trans (Fine.release h.fine hold)
        exact hreleased (hstored (hstored halloc _ _ _) _ _ _)

theorem Fine.doBrk (requested : UInt64) : x.Carries (x.doBrk requested).sys := by
  unfold Sys.doBrk
  dsimp only
  split
  · exact hf.refl
  · split
    · exact hf.refl
    · split
      · exact hf.refl
      · split
        · exact hf.store _ _ _
        · exact hf.refl

end Sys

/-- The calls that leave no readable range on a closed page. -/
def MemoryCall.Ok (x : Sys) : MemoryCall → Prop
  | .mmap r => r.length ≠ 0 → x.MmapFits r ∧ ¬ x.ReadOnlyView r
  | .munmap a n => (x.toHost a).toNat + n.toNat + 4096 ≤ 2 ^ 64
  | .mprotect a n p => (x.toHost a).toNat + n.toNat + x.space.page ≤ 2 ^ 64 ∧
      ¬ x.space.Degenerate (x.toHost a) n ∧
      ¬ x.space.Uncovers x.host (x.toHost a) n (guestProtection p)
  | .mremap a oldSize newSize _ => newSize.toNat + x.space.page ≤ 2 ^ 64 ∧
      (x.toHost a).toNat + oldSize.toNat + 4096 ≤ 2 ^ 64
  | .brk _ => True

theorem MemoryCall.run_carries {x : Sys} (hf : x.Fine) {c : MemoryCall} (hok : c.Ok x) :
    x.Carries (c.run x).sys := by
  cases c with
  | mmap r =>
    by_cases h0 : r.length = 0
    · change x.Carries (x.doMmap r).sys
      unfold Sys.doMmap
      rw [if_pos h0]
      exact hf.refl
    · exact hf.doMmap (hok h0).1 (hok h0).2
  | munmap a n => exact hf.munmap hok
  | mprotect a n p => exact hf.mprotect hok.1 hok.2.1 hok.2.2
  | mremap a _ _ flags => exact hf.mremap flags hok.1 hok.2
  | brk requested => exact hf.doBrk requested

structure World where
  procs : Nat → Option GuestProcess
  shared : SharedTable
  host : Host

namespace World

def sys (w : World) (p : GuestProcess) : Sys := ⟨p, w.shared, w.host⟩

def put (w : World) (pid : Nat) (x : Sys) : World :=
  ⟨update w.procs pid (some x.process), x.shared, x.host⟩

def views (w : World) (p : GuestProcess) : List (UInt64 × UInt64) :=
  w.shared.sharedMappingsIn p.space.base (p.space.base + p.space.size)

end World

/-- `reserved` is where the host put the child's arena. -/
inductive Event where
  | call (pid : Nat) (c : MemoryCall)
  | fork (pid child : Nat) (request : GuestProcess.ForkRequest) (reserved : Geometry)

namespace Event

def run (w : World) : Event → Option World
  | .call pid c => (w.procs pid).map fun p => w.put pid (c.run (w.sys p)).sys
  | .fork pid child request reserved =>
    match w.procs pid with
    | none => none
    | some p =>
      match p.forkProcess request (some reserved) (w.views p) w.host with
      | .error _ => none
      | .ok (q, h) => some { w with procs := update w.procs child (some q), host := h }

def Possible (w : World) : Event → Prop
  | .call _ _ => True
  | .fork pid child request reserved => request.copies = true ∧ w.procs child = none ∧
      (∀ p, w.procs pid = some p → Twin p.space.toGeometry reserved) ∧ ∀ j q, w.procs j = some q →
        q.space.limit ≤ reserved.base.toNat ∨ reserved.limit ≤ q.space.base.toNat

def Ok (w : World) : Event → Prop
  | .call pid c => ∀ p, w.procs pid = some p → c.Ok (w.sys p)
  | .fork pid _ _ _ => ∀ p, w.procs pid = some p → p.space.OpenPages

end Event

namespace World

def Step (ok : World → Event → Prop) (w w' : World) : Prop :=
  ∃ e : Event, e.Possible w ∧ ok w e ∧ e.run w = some w'

structure Boot (w : World) : Prop where
  one : ∀ pid, pid ≠ 1 → w.procs pid = none
  fresh : ∀ p, w.procs 1 = some p → Fresh p.space
  shared : w.shared = .empty
  succeeds : w.host.Succeeds

def Reaches (ok : World → Event → Prop) (w : World) : Prop :=
  ∃ w₀, Boot w₀ ∧ Relation.ReflTransGen (Step ok) w₀ w

/-- A buffer `GuestPointer` lets through can be used for what it was asked
for, on every host page of it. -/
def PointersSafe (w : World) : Prop :=
  ∀ pid p, w.procs pid = some p → ∀ a n writable host,
  (w.sys p).guestPointer false a n writable = some host →
  ∀ x, host.toNat ≤ x → x < host.toNat + n.toNat → ∀ y ∈ pageOf p.space.page x,
  if writable then (w.host.prot y).write = true else (w.host.prot y).read = true

structure Good (w : World) : Prop where
  succeeds : w.host.Succeeds
  fine : ∀ pid p, w.procs pid = some p → p.space.Fine w.host
  apart : ∀ i j p q, i ≠ j → w.procs i = some p → w.procs j = some q →
    p.space.limit ≤ q.space.base.toNat ∨ q.space.limit ≤ p.space.base.toNat

variable {w : World}

theorem Boot.good (hb : w.Boot) : w.Good := by
  have hone : ∀ pid p, w.procs pid = some p → pid = 1 := fun pid p hp => by
    by_contra hne
    rw [hb.one pid hne] at hp
    cases hp
  refine ⟨hb.succeeds, fun pid p hp => ?_, fun i j p q hne hp hq => ?_⟩
  · rw [hone pid p hp] at hp
    refine ⟨(hb.fresh p hp).sane, hb.succeeds, fun x t ht => ?_⟩
    rw [(hb.fresh p hp).attr] at ht
    cases ht
  · exact absurd ((hone i p hp).trans (hone j q hq).symm) hne

theorem fine_elsewhere {h h' : Host} (hf : s.Fine h) (hh : h'.Succeeds)
    (hprot : ∀ y, s.base.toNat ≤ y → y < s.limit →
      h'.prot y = h.prot y ∨ h'.prot y = protReadWrite) : s.Fine h' := by
  refine ⟨hf.sane, hh, fun x t ht hr y hy => ?_⟩
  have hin := page_subset_span s.page_pos s.base_aligned s.page_dvd_limit (hf.sane.arena x t ht) hy
  rcases hprot y hin.1 hin.2 with heq | hopen
  · rw [heq]
    exact hf.usable x t ht hr y hy
  · exact hopen

variable {p : GuestProcess}

theorem Good.update (hw : w.Good) {pid : Nat} {h : Host} (t : SharedTable) (hfine : p.space.Fine h)
    (hapart : ∀ j q, j ≠ pid → w.procs j = some q →
      q.space.limit ≤ p.space.base.toNat ∨ p.space.limit ≤ q.space.base.toNat)
    (hprot : ∀ y, ¬ (p.space.base.toNat ≤ y ∧ y < p.space.limit) →
      h.prot y = w.host.prot y ∨ h.prot y = protReadWrite) :
    Good ⟨Function.update w.procs pid (some p), t, h⟩ := by
  have hother : ∀ j q, j ≠ pid → Function.update w.procs pid (some p) j = some q →
      w.procs j = some q := fun j q hne hq => by rwa [Function.update_of_ne hne] at hq
  have hself : ∀ q, Function.update w.procs pid (some p) pid = some q → q = p := fun q hq => by
    rw [Function.update_self] at hq
    exact (Option.some.inj hq).symm
  refine ⟨hfine.succeeds, fun j q hq => ?_, fun i j q r hne hq hr => ?_⟩
  · by_cases hj : j = pid
    · subst hj
      rw [hself q hq]
      exact hfine
    · have hq' := hother j q hj hq
      have hout := hapart j q hj hq'
      exact fine_elsewhere (hw.fine j q hq') hfine.succeeds fun y h1 h2 =>
        hprot y fun hin => by omega
  · by_cases hi : i = pid
    · subst hi
      rw [hself q hq]
      exact (hapart j r (Ne.symm hne) (hother j r (Ne.symm hne) hr)).symm
    · by_cases hj : j = pid
      · subst hj
        rw [hself r hr]
        exact hapart i q hi (hother i q hi hq)
      · exact hw.apart i j q r hne (hother i q hi hq) (hother j r hj hr)

theorem Good.put (hw : w.Good) {pid : Nat} (hp : w.procs pid = some p) {x : Sys}
    (hcar : (w.sys p).Carries x) : (w.put pid x).Good := by
  have hgeo : x.process.space.toGeometry = p.space.toGeometry := hcar.geometry
  refine hw.update x.shared hcar.fine (fun j q hne hq => ?_) fun y hy => ?_
  · rw [hgeo]
    exact hw.apart j pid q p hne hq hp
  · rw [hgeo] at hy
    exact hcar.outside y hy

variable {request : GuestProcess.ForkRequest}

theorem forkProcess_into {q : GuestProcess} {g : Geometry} {h h' : Host}
    (hcopies : request.copies = true)
    (hfork : p.forkProcess request (some g) shared h = .ok (q, h')) :
    (q.space, h') = forkInto p.space p.is32bit g shared h := by
  unfold GuestProcess.forkProcess at hfork
  rw [if_pos hcopies] at hfork
  cases hfork
  rfl

theorem Good.fork (hw : w.Good) {pid child : Nat} {q : GuestProcess} {g : Geometry} {h : Host}
    (hp : w.procs pid = some p) (hposs : (Event.fork pid child request g).Possible w)
    (hopen : p.space.OpenPages)
    (hfork : p.forkProcess request (some g) (w.views p) w.host = .ok (q, h)) :
    Good { w with procs := Function.update w.procs child (some q), host := h } := by
  obtain ⟨hcopies, _, htwin, hapart⟩ := hposs
  have hinto := forkProcess_into hcopies hfork
  obtain ⟨hfine, hgeo, hframe⟩ := (hw.fine pid p hp).fork (htwin p hp) hopen p.is32bit (w.views p)
  rw [← hinto] at hfine hgeo hframe
  refine hw.update w.shared hfine (fun j r _ hr => ?_) fun y hy => ?_
  · rw [hgeo]
    exact hapart j r hr
  · rw [hgeo] at hy
    exact .inl (hframe y hy)

theorem Good.step {w' : World} (hw : w.Good) (hs : Step Event.Ok w w') : w'.Good := by
  obtain ⟨e, hposs, hok, hrun⟩ := hs
  cases e with
  | call pid c =>
    obtain ⟨p, hp, rfl⟩ := Option.map_eq_some_iff.mp hrun
    exact hw.put hp (MemoryCall.run_carries (x := w.sys p) (hw.fine pid p hp) (hok p hp))
  | fork pid _ request g =>
    rw [Event.run] at hrun
    cases hp : w.procs pid with
    | none =>
      rw [hp] at hrun
      cases hrun
    | some p =>
      rw [hp] at hrun
      dsimp only at hrun
      cases hfork : p.forkProcess request (some g) (w.views p) w.host with
      | error _ =>
        rw [hfork] at hrun
        cases hrun
      | ok _ =>
        rw [hfork] at hrun
        cases hrun
        exact hw.fork hp hposs (hok p hp) hfork

theorem Good.pointersSafe (hw : w.Good) : w.PointersSafe := by
  intro pid p hp a n writable host hptr x hx hx' y hy
  have hf := hw.fine pid p hp
  unfold Sys.guestPointer at hptr
  split at hptr
  · cases hptr
  next hnz =>
    rw [not_or] at hnz
    dsimp only at hptr
    split at hptr
    · cases hptr
    next hv =>
      cases hptr
      simp only [Bool.not_false, Bool.true_and, Bool.not_eq_true', Bool.not_eq_false] at hv
      obtain ⟨t, ht, hr⟩ := validate_reads hf.sane.inv hv hnz.2 x hx hx'
      have hopen : w.host.prot y = protReadWrite := hf.usable x t ht hr y hy
      rw [hopen]
      cases writable <;> rfl

/-- In every state reached by steps that close no readable page, a buffer that
`GuestPointer` lets through can be loaded from and stored into. -/
theorem pointersSafe_of_reaches {w : World} (hr : Reaches Event.Ok w) : w.PointersSafe := by
  obtain ⟨_, hboot, hrun⟩ := hr
  have hgood : w.Good := by
    induction hrun with
    | refl => exact hboot.good
    | tail _ hstep ih => exact ih.step hstep
  exact hgood.pointersSafe

/-- A process at the start: a 32-bit one, in an arena of its own. -/
def first : GuestProcess where
  is32bit := true
  guestBase := oneMegabyte.base
  space := newArena true oneMegabyte
  syscalls := .new true oneMegabyte.base
  agrees := rfl

def booted : World := ⟨update (fun _ => none) 1 (some first), .empty, Host.fresh⟩

theorem boot_booted : booted.Boot := by
  refine ⟨fun pid hne => ?_, fun p hp => ?_, rfl, Host.succeeds_fresh⟩
  · change update (fun _ => none) 1 (some first) pid = none
    rw [update_of_ne hne]
  · cases hp
    exact fresh_newArena true oneMegabyte

def readOnlyView : MmapRequest :=
  ⟨0, 0x4000, 1, kMapShared,
    some ⟨[], false, ⟨[], 1, 1, 0x4000, fun _ => 7, fun _ => 0x4000⟩⟩, 0, 0⟩

def executableOnly : MmapRequest := ⟨0, 0x4000, 4, kMapAnonymous, none, 0, 0⟩

def copyingFork : GuestProcess.ForkRequest := ⟨true, 0, false⟩

def viewed : World := booted.put 1 ((booted.sys first).doMmap readOnlyView).sys

theorem reaches_viewed : Reaches (fun _ _ => True) viewed :=
  ⟨booted, boot_booted, .single ⟨.call 1 (.mmap readOnlyView), trivial, trivial, rfl⟩⟩

def mapped : World := booted.put 1 ((booted.sys first).doMmap executableOnly).sys

def forked : World := ((Event.fork 1 2 copyingFork nextMegabyte).run mapped).getD booted

def uncovered : World := ((Event.call 2 (.mprotect 0x10000 0x4000 1)).run forked).getD booted

theorem fork_possible {x : Sys} (hgeo : x.process.space.toGeometry = oneMegabyte) :
    (Event.fork 1 2 copyingFork nextMegabyte).Possible (booted.put 1 x) := by
  have hone : ∀ j q, (booted.put 1 x).procs j = some q →
      q.space.toGeometry = oneMegabyte := by
    intro j q hq
    change update (update (fun _ => none) 1 (some first)) 1 _ j = some q at hq
    by_cases hj : j = 1
    · rw [hj] at hq
      cases hq
      exact hgeo
    · rw [update_of_ne hj, update_of_ne hj] at hq
      cases hq
  refine ⟨rfl, rfl, fun p hp => ?_, fun j q hq => ?_⟩
  · rw [hone 1 p hp]
    exact twin_megabytes
  · rw [hone j q hq]
    exact twin_megabytes.apart

theorem reaches_uncovered : Reaches (fun _ _ => True) uncovered :=
  ⟨booted, boot_booted, .tail (.tail
    (.single ⟨.call 1 (.mmap executableOnly), trivial, trivial, rfl⟩)
    ⟨_, fork_possible rfl, trivial, rfl⟩)
    ⟨.call 2 (.mprotect 0x10000 0x4000 1), trivial, trivial, rfl⟩⟩

theorem not_pointersSafe (pid : Nat) (a n host : UInt64)
    (writable : Bool) (hp : w.procs pid = some p) (hn : 0 < n.toNat)
    (hptr : (w.sys p).guestPointer false a n writable = some host)
    (hclosed : (if writable then (w.host.prot host.toNat).write
      else (w.host.prot host.toNat).read) = false) : ¬ w.PointersSafe := by
  intro hsafe
  have := hsafe pid p hp a n writable host hptr host.toNat le_rfl (by omega) host.toNat rfl
  cases writable with
  | false => exact Bool.false_ne_true (hclosed.symm.trans this)
  | true => exact Bool.false_ne_true (hclosed.symm.trans this)

theorem reaches_not_pointersSafe : (Reaches (fun _ _ => True) viewed ∧ ¬ viewed.PointersSafe) ∧
      Reaches (fun _ _ => True) uncovered ∧ ¬ uncovered.PointersSafe := by
  refine ⟨⟨reaches_viewed, ?_⟩, reaches_uncovered, ?_⟩
  · exact not_pointersSafe 1 0x10000 16 0x100010000 true rfl (by decide) (by decide) (by decide)
  · exact not_pointersSafe 2 0x10000 16 0x200010000 false rfl (by decide) (by decide) (by decide)

def readWrite : MmapRequest := ⟨0, 0x4000, 3, kMapAnonymous, none, 0, 0⟩

def doubled : World :=
  ((Event.fork 1 2 copyingFork nextMegabyte).run
    (booted.put 1 ((booted.sys first).doMmap readWrite).sys)).getD booted

theorem pointersSafe_of_reaches_doubled :
    (doubled.procs 2).map (fun p => (doubled.sys p).guestPointer false 0x10000 16 true) =
      some (some 0x200010000) ∧ doubled.PointersSafe := by
  have hmap : (Event.call 1 (.mmap readWrite)).Ok booted := by
    intro p hp _
    cases hp
    exact ⟨⟨.inl rfl, fun h => (nomatch h), fun _ => by decide⟩, fun h => (nomatch h.1)⟩
  have hopen : ((booted.sys first).doMmap readWrite).sys.space.OpenPages := by
    have hlist : ((booted.sys first).doMmap readWrite).sys.space.committed =
        [⟨0x100010000, 0x4000, 3, 1, true⟩] := by decide
    intro q _ r hr x _ _ _
    rw [hlist, List.mem_singleton] at hr
    rw [hr]
    rfl
  refine ⟨by decide, pointersSafe_of_reaches ⟨booted, boot_booted, .tail
    (.single ⟨.call 1 (.mmap readWrite), trivial, hmap, rfl⟩)
    ⟨_, fork_possible rfl, fun p hp => ?_, rfl⟩⟩⟩
  cases hp
  exact hopen

end World

end Fathom
