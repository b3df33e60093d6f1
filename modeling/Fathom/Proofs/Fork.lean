import Fathom.Proofs.Runs
import Fathom.Runtime.Fork

/-!
# What a fork copies

`CopyAddressSpace` is a loop over pieces, each adopted on whole pages if nothing adopted
before is in its way. So not every range gets through; those that do say what the child
owns, and a parent is copied whole exactly if each range lies on their pages.
-/

namespace Fathom

open Lib Spanned GuestAddressSpace Geometry

/-- A child's arena next to its parent's: the same host page, at least as
large, and apart. -/
structure Twin (gp gc : Geometry) : Prop where
  page : gc.pageSize = gp.pageSize
  room : gp.size.toNat ≤ gc.size.toNat
  apart : gp.limit ≤ gc.base.toNat ∨ gc.limit ≤ gp.base.toNat

theorem twin_megabytes : Twin oneMegabyte nextMegabyte :=
  ⟨rfl, le_rfl, .inl (by decide)⟩

theorem Twin.page_eq {gp gc : Geometry} (ht : Twin gp gc) : gc.page = gp.page :=
  congrArg UInt64.toNat ht.page

namespace Piece

def low (g : Geometry) (p : Piece) : Nat := roundDown g.page p.begin.toNat - g.base.toNat

def high (g : Geometry) (p : Piece) : Nat := roundUp g.page p.stop.toNat - g.base.toNat

structure Inside (g : Geometry) (p : Piece) : Prop where
  base : g.base.toNat ≤ p.begin.toNat
  pos : roundDown g.page p.begin.toNat < roundUp g.page p.stop.toNat
  limit : p.stop.toNat ≤ g.limit

def hostProtection (p : Piece) : HostProt :=
  if p.written then remappedProtection p.protection else reservedProtection p.protection

structure Rounded (g : Geometry) (p : Piece) (b e : UInt64) : Prop where
  begin : b.toNat = g.base.toNat + p.low g
  stop : e.toNat = g.base.toNat + p.high g
  pos : p.low g < p.high g
  size : p.high g ≤ g.size.toNat
  lowPage : g.page ∣ p.low g
  highPage : g.page ∣ p.high g

theorem Inside.rounded {g : Geometry} {p : Piece} (hp : p.Inside g) :
    p.Rounded g (maskDown g.pageSize p.begin) (maskUp g.pageSize p.stop) := by
  obtain ⟨k, _, _, hk⟩ := g.page_pow
  have hbase := hp.base
  have hpos := hp.pos
  have hlimit := hp.limit
  have hroom := g.limit_add_page
  have hpp := g.page_pos
  have hd := toNat_maskDown hk p.begin
  have hu := toNat_maskUp hk (show p.stop.toNat + g.page ≤ 2 ^ 64 by omega)
  change _ = roundDown g.page p.begin.toNat at hd
  change _ = roundUp g.page p.stop.toNat at hu
  have h1 := (le_roundDown_iff hpp g.base_aligned).mpr hbase
  have h2 := (roundUp_le_iff hpp g.page_dvd_limit).mpr hlimit
  have hlim : g.limit = g.base.toNat + g.size.toNat := rfl
  exact ⟨by rw [low]; omega, by rw [high]; omega,
    by simp only [low, high]; omega, by rw [high]; omega,
    Nat.dvd_sub (dvd_roundDown _ _) g.base_aligned, Nat.dvd_sub (dvd_roundUp _ _) g.base_aligned⟩

end Piece

variable {gc : Geometry} {r : GuestRange} {s : GuestAddressSpace}

/-! ## One piece -/

theorem toNat_target {gp : Geometry} (ht : Twin gp gc) {b : UInt64} {k : Nat}
    (hb : b.toNat = gp.base.toNat + k) (hk : k ≤ gp.size.toNat) :
    (b + (gc.base - gp.base)).toNat = gc.base.toNat + k := by
  have hroom := ht.room
  have hfits := gc.fits
  have h1 := toNat_lt_word gp.base
  rw [UInt64.toNat_add, UInt64.toNat_sub]
  omega

structure Target (gp gc : Geometry) (p : Piece) (a b n : UInt64) : Prop where
  source : a.toNat = gp.base.toNat + p.low gp
  target : b.toNat = gc.base.toNat + p.low gp
  length : n.toNat = p.high gp - p.low gp
  pos : p.low gp < p.high gp
  size : p.high gp ≤ gc.size.toNat
  targetPage : gc.page ∣ b.toNat
  lengthPage : gc.page ∣ n.toNat

variable {p : Piece} {source target length : UInt64}

theorem Target.inSpan {gp : Geometry} (h : Target gp gc p source target length) (y : Nat) :
    Host.inSpan target length y = true ↔
    gc.base.toNat + p.low gp ≤ y ∧ y < gc.base.toNat + p.high gp := by
  have h1 := h.target
  have h2 := h.length
  rw [Host.inSpan_iff]
  omega

variable {c : GuestAddressSpace} {gp : Geometry}

theorem remap_eq (h : Host) (ht : Twin gp c.toGeometry) (hp : p.Inside gp) :
    ∃ source target length, Target gp c.toGeometry p source target length ∧
    remap gp.pageSize (c.base - gp.base) p c h = if !p.written then
        ((c.adoptCopiedMapping target length p.protection false).2,
          (h.mprotect target length (reservedProtection p.protection)).2)
      else if (h.vmRemap target length source).1 then
        ((c.adoptCopiedMapping target length p.protection true).2,
          ((h.vmRemap target length source).2.mprotect target length
            (remappedProtection p.protection)).2)
      else (c, (h.vmRemap target length source).2) := by
  have hr := hp.rounded
  rw [remap]
  generalize maskDown gp.pageSize p.begin = b at hr
  generalize maskUp gp.pageSize p.stop = e at hr
  have hpos := hr.pos
  have hbeg := hr.begin
  have hstop := hr.stop
  have hsize := hr.size
  have hroom := ht.room
  have htarget := toNat_target ht hbeg (by omega)
  have hsub : (e - b).toNat = p.high gp - p.low gp := by
    rw [toNat_sub_of_le (by omega)]
    omega
  have hlow : c.page ∣ p.low gp := by
    rw [ht.page_eq]
    exact hr.lowPage
  have hhigh : c.page ∣ p.high gp := by
    rw [ht.page_eq]
    exact hr.highPage
  refine ⟨b, b + (c.base - gp.base), e - b, ⟨hbeg, htarget, hsub, hpos, by omega, ?_, ?_⟩, ?_⟩
  · rw [htarget]
    exact Nat.dvd_add c.base_aligned hlow
  · rw [hsub]
    exact Nat.dvd_sub hhigh hlow
  · rw [if_neg (by rw [UInt64.le_iff_toNat_le]; omega)]

structure RemapsHost (gp gc : Geometry) (p : Piece) (h h' : Host) : Prop where
  succeeds : h'.Succeeds
  mem : ∀ k, p.low gp ≤ k → k < p.high gp → h'.mem (gc.base.toNat + k) =
    if p.written then h.mem (gp.base.toNat + k) else h.mem (gc.base.toNat + k)
  prot : ∀ k, p.low gp ≤ k → k < p.high gp → h'.prot (gc.base.toNat + k) = p.hostProtection
  frame : ∀ y, ¬ (gc.base.toNat + p.low gp ≤ y ∧ y < gc.base.toNat + p.high gp) →
    h'.mem y = h.mem y ∧ h'.prot y = h.prot y

theorem remap_host {h : Host} (ht : Twin gp c.toGeometry) (hh : h.Succeeds) (hp : p.Inside gp) :
    RemapsHost gp c.toGeometry p h (remap gp.pageSize (c.base - gp.base) p c h).2 := by
  obtain ⟨source, target, length, hw, heq⟩ := remap_eq h ht hp
  rw [heq]
  have hspan := hw.inSpan
  have hsource := hw.source
  have htarget := hw.target
  cases hwr : p.written with
  | false =>
    simp only [Bool.not_false, if_true]
    refine ⟨(hh.mprotect _ _ _).2, fun k h1 h2 => ?_, fun k h1 h2 => ?_, fun y hy => ?_⟩
    · rw [Host.mprotect_mem, hwr]
      rfl
    · rw [hh.mprotect_prot, if_pos ((hspan _).mpr (by omega)), Piece.hostProtection, hwr]
      rfl
    · rw [Host.mprotect_mem, hh.mprotect_prot, if_neg (fun hc => hy ((hspan y).mp hc))]
      exact ⟨rfl, rfl⟩
  | true =>
    have hv := hh.vmRemap target length source
    simp only [Bool.not_true, Bool.false_eq_true, if_false, hv.1, if_true]
    refine ⟨(hv.2.mprotect _ _ _).2, fun k h1 h2 => ?_, fun k h1 h2 => ?_, fun y hy => ?_⟩
    · rw [Host.mprotect_mem, hh.vmRemap_mem, if_pos ((hspan _).mpr (by omega)), hwr]
      congr 1
      omega
    · rw [hv.2.mprotect_prot, if_pos ((hspan _).mpr (by omega)), Piece.hostProtection, hwr]
      rfl
    · have hout : ¬ Host.inSpan target length y = true := fun hc => hy ((hspan y).mp hc)
      rw [Host.mprotect_mem, hv.2.mprotect_prot, hh.vmRemap_mem, hh.vmRemap_prot,
        if_neg hout, if_neg hout, if_neg hout]
      exact ⟨rfl, rfl⟩

def Piece.Free (gp : Geometry) (p : Piece) (c : GuestAddressSpace) : Prop :=
  ∀ k, p.low gp ≤ k → k < p.high gp → Covers c.free (c.base.toNat + k)

structure Adopts (gp : Geometry) (p : Piece) (c c' : GuestAddressSpace) : Prop where
  inv : c'.ListInv
  geometry : c'.toGeometry = c.toGeometry
  edges : Edges (c.page ∣ ·) c.committed → Edges (c.page ∣ ·) c'.committed
  placed : ∃ epoch w, (w = false ∨ w = p.protection.has kGuestProtWrite) ∧
    (p.written = true → w = p.protection.has kGuestProtWrite) ∧
    c'.layout = c.layout.place (c.base.toNat + p.low gp) (c.base.toNat + p.high gp)
      ⟨p.protection, epoch, w⟩

theorem Target.takes (h : Target gp c.toGeometry p source target length) :
    c.Takes target length ↔ p.Free gp c := by
  have h1 := h.target
  have h2 := h.length
  have h3 := h.pos
  have h4 := h.size
  have hfits := c.fits
  constructor
  · intro ht k hk1 hk2
    exact ht.free _ (by omega) (by omega)
  · intro hf
    refine ⟨by omega, by omega, h.targetPage, h.lengthPage, fun x hx1 hx2 => ?_⟩
    have hx := hf (x - c.base.toNat) (by omega) (by omega)
    rwa [Nat.add_sub_cancel' (by omega)] at hx

theorem Target.adopts (h : Target gp c.toGeometry p source target length) (hc : c.ListInv)
    {written : Bool} (hw : p.written = written) :
    ((c.adoptCopiedMapping target length p.protection written).2 = c ∧ ¬ p.Free gp c) ∨
    (p.Free gp c ∧ Adopts gp p c (c.adoptCopiedMapping target length p.protection written).2) := by
  have h1 := h.target
  have h2 := h.length
  have h3 := h.pos
  have h4 := h.size
  have hfits := c.fits
  have hend : target.toNat + length.toNat = c.base.toNat + p.high gp := by omega
  obtain ⟨hinv, hgeo, hor⟩ := adoptCopiedMapping_spec hc p.protection written
    h.targetPage h.lengthPage (by omega)
  rcases hor with ⟨_, heq, hno⟩ | ⟨_, htake, w, hw1, hw2, hlay⟩
  · exact .inl ⟨heq, fun hf => hno (h.takes.mpr hf)⟩
  · refine .inr ⟨h.takes.mp htake, hinv, hgeo, fun hB => ?_, c.nextEpoch, w, hw1, ?_, ?_⟩
    · exact adoptCopiedMapping_edges hc p.protection written htake.fits hB h.targetPage
        (Nat.dvd_add h.targetPage h.lengthPage)
    · rw [hw]
      exact hw2
    · rw [hlay, hend, h1]

theorem remap_space (h : Host) (ht : Twin gp c.toGeometry) (hc : c.ListInv) (hp : p.Inside gp) :
    ((remap gp.pageSize (c.base - gp.base) p c h).1 = c ∧ (h.Succeeds → ¬ p.Free gp c)) ∨
    (p.Free gp c ∧ Adopts gp p c (remap gp.pageSize (c.base - gp.base) p c h).1) := by
  obtain ⟨_, _, _, hw, heq⟩ := remap_eq h ht hp
  rw [heq]
  cases hwr : p.written with
  | false => exact (hw.adopts hc hwr).imp_left fun h => ⟨h.1, fun _ => h.2⟩
  | true =>
    simp only [Bool.not_true, Bool.false_eq_true, if_false]
    split
    · exact (hw.adopts hc hwr).imp_left fun h => ⟨h.1, fun _ => h.2⟩
    next hno => exact .inl ⟨rfl, fun hh => absurd (hh.vmRemap _ _ _).1 hno⟩

/-! ## All of them -/

structure RemapsAll (gp gc : Geometry) (ps : List Piece) (h h' : Host) : Prop where
  succeeds : h'.Succeeds
  copied : ∀ p ∈ ps, p.written = true → ∀ k, p.low gp ≤ k → k < p.high gp →
    h'.mem (gc.base.toNat + k) = h.mem (gp.base.toNat + k)
  kept : ∀ y, (∀ p ∈ ps, p.written = true → ∀ k, y = gc.base.toNat + k →
      ¬ (p.low gp ≤ k ∧ k < p.high gp)) → h'.mem y = h.mem y
  prot : ∀ p ∈ ps, ∀ k, p.low gp ≤ k → k < p.high gp → ∃ q ∈ ps, (q.low gp ≤ k ∧ k < q.high gp) ∧
      h'.prot (gc.base.toNat + k) = q.hostProtection
  protKept : ∀ y, (∀ p ∈ ps, ∀ k, y = gc.base.toNat + k →
      ¬ (p.low gp ≤ k ∧ k < p.high gp)) → h'.prot y = h.prot y

variable {ps : List Piece}

theorem RemapsAll.cons (ht : Twin gp gc) {h h₁ h₂ : Host} (hp : p.Inside gp)
    (hps : ∀ q ∈ ps, q.Inside gp) (r₁ : RemapsHost gp gc p h h₁) (r₂ : RemapsAll gp gc ps h₁ h₂) :
    RemapsAll gp gc (p :: ps) h h₂ := by
  have hlim : gp.limit = gp.base.toNat + gp.size.toNat := rfl
  have hlim' : gc.limit = gc.base.toNat + gc.size.toNat := rfl
  have hroom := ht.room
  have hapart := ht.apart
  have hsize := hp.rounded.size
  -- The parent's own bytes are not in the way of the copy.
  have hparent : ∀ k, k < gp.size.toNat →
      h₁.mem (gp.base.toNat + k) = h.mem (gp.base.toNat + k) := fun k hk =>
    (r₁.frame _ (by omega)).1
  have hlater : ∀ q ∈ ps, ∀ k, k < q.high gp → k < gp.size.toNat := fun q hq k hk => by
    have := (hps q hq).rounded.size
    omega
  refine ⟨r₂.succeeds, ?_, ?_, ?_, ?_⟩
  · intro q hq hw k h1 h2
    rcases List.mem_cons.mp hq with rfl | hq
    · by_cases hmore : ∃ q' ∈ ps, q'.written = true ∧ q'.low gp ≤ k ∧ k < q'.high gp
      · obtain ⟨q', hq', hw', h3, h4⟩ := hmore
        rw [r₂.copied q' hq' hw' k h3 h4, hparent k (hlater q' hq' k h4)]
      · rw [r₂.kept _ fun q' hq' hw' k' hk' hin => ?_, r₁.mem k h1 h2, if_pos hw]
        have hkk : k' = k := by omega
        subst hkk
        exact hmore ⟨q', hq', hw', hin⟩
    · rw [r₂.copied q hq hw k h1 h2, hparent k (hlater q hq k h2)]
  · intro y hy
    rw [r₂.kept y fun q hq => hy q (List.mem_cons_of_mem _ hq)]
    by_cases hin : gc.base.toNat + p.low gp ≤ y ∧ y < gc.base.toNat + p.high gp
    · obtain ⟨k, rfl⟩ := Nat.exists_eq_add_of_le (Nat.le_trans (Nat.le_add_right _ _) hin.1)
      rw [r₁.mem k (by omega) (by omega), if_neg]
      exact fun hw => hy p List.mem_cons_self hw k rfl (by omega)
    · exact (r₁.frame y hin).1
  · intro q hq k h1 h2
    by_cases hmore : ∃ q' ∈ ps, q'.low gp ≤ k ∧ k < q'.high gp
    · obtain ⟨q', hq', h3, h4⟩ := hmore
      obtain ⟨q'', hq'', hin, heq⟩ := r₂.prot q' hq' k h3 h4
      exact ⟨q'', List.mem_cons_of_mem _ hq'', hin, heq⟩
    · have hqp : q = p := (List.mem_cons.mp hq).resolve_right fun hq => hmore ⟨q, hq, h1, h2⟩
      subst hqp
      refine ⟨q, List.mem_cons_self, ⟨h1, h2⟩, ?_⟩
      rw [r₂.protKept _ fun q' hq' k' hk' hin => ?_, r₁.prot k h1 h2]
      have hkk : k' = k := by omega
      subst hkk
      exact hmore ⟨q', hq', hin⟩
  · intro y hy
    rw [r₂.protKept y fun q hq => hy q (List.mem_cons_of_mem _ hq)]
    refine (r₁.frame y fun hin => ?_).2
    exact hy p List.mem_cons_self (y - gc.base.toNat) (by omega) (by omega)

theorem remap_keeps (h : Host) (ht : Twin gp c.toGeometry) (hc : c.ListInv) (hp : p.Inside gp) :
    (remap gp.pageSize (c.base - gp.base) p c h).1.ListInv ∧
    (remap gp.pageSize (c.base - gp.base) p c h).1.toGeometry = c.toGeometry := by
  rcases remap_space h ht hc hp with ⟨heq, _⟩ | ⟨_, hadopt⟩
  · rw [heq]
    exact ⟨hc, rfl⟩
  · exact ⟨hadopt.inv, hadopt.geometry⟩

theorem remapAll_host :
    ∀ {c : GuestAddressSpace} {h : Host}, Twin gp c.toGeometry → c.ListInv → h.Succeeds →
    (∀ p ∈ ps, p.Inside gp) → RemapsAll gp c.toGeometry ps h
      (remapAll gp.pageSize (c.base - gp.base) ps c h).2 := by
  induction ps with
  | nil =>
    intro c h _ _ hh _
    exact ⟨hh, fun p hp => (nomatch hp), fun _ _ => rfl, fun p hp => (nomatch hp), fun _ _ => rfl⟩
  | cons p ps ih =>
    intro c h ht hc hh hin
    have hp := hin p List.mem_cons_self
    have hps : ∀ q ∈ ps, q.Inside gp := fun q hq => hin q (List.mem_cons_of_mem _ hq)
    have hone := remap_host ht hh hp
    obtain ⟨hinv, hgeo⟩ := remap_keeps h ht hc hp
    have hrest := ih (by rw [hgeo]; exact ht) hinv hone.succeeds hps
    rw [hgeo] at hrest
    exact RemapsAll.cons ht hp hps hone hrest

theorem remapAll_sane : ∀ {c : GuestAddressSpace} (h : Host), Twin gp c.toGeometry → c.Sane →
      (∀ p ∈ ps, p.Inside gp ∧ (p.protection.has kGuestProtWrite = true → p.written = true)) →
      (remapAll gp.pageSize (c.base - gp.base) ps c h).1.Sane ∧
        (remapAll gp.pageSize (c.base - gp.base) ps c h).1.toGeometry = c.toGeometry := by
  induction ps with
  | nil =>
    intro c h _ hc _
    exact ⟨hc, rfl⟩
  | cons p ps ih =>
    intro c h ht hc hin
    obtain ⟨hp, hflag⟩ := hin p List.mem_cons_self
    have hps : ∀ q ∈ ps, q.Inside gp ∧
        (q.protection.has kGuestProtWrite = true → q.written = true) :=
      fun q hq => hin q (List.mem_cons_of_mem _ hq)
    have hspace := remap_space h ht hc.inv hp
    rw [remapAll]
    generalize remap gp.pageSize (c.base - gp.base) p c h = out at hspace
    obtain ⟨c₁, h₁⟩ := out
    rcases hspace with ⟨rfl, _⟩ | ⟨_, hadopt⟩
    · exact ih h₁ ht hc hps
    · obtain ⟨_, w, _, hw, hlay⟩ := hadopt.placed
      have hgeo := hadopt.geometry
      have hsize := hp.rounded.size
      have hroom := ht.room
      have hlim : c.limit = c.base.toNat + c.size.toNat := rfl
      have hsane : c₁.Sane := by
        refine hc.placed hadopt.inv hgeo (fun h => ?_) (Nat.le_add_right _ _) ?_ hlay
        · rw [hw (hflag h)]
          exact h
        · omega
      rw [← hgeo]
      exact ih h₁ (by rw [hgeo]; exact ht) hsane hps

/-! ## The ranges that get through -/

def pieceOf (r : GuestRange) : Piece := ⟨r.begin, Spanned.stop r, r.protection, true, r.written⟩

theorem forkPieces_nil (parent : GuestAddressSpace) :
    forkPieces parent [] = parent.committed.map pieceOf := by
  rw [List.map_eq_flatMap]
  rfl

def OnPages (page : Nat) (r : GuestRange) (x : Nat) : Prop :=
  roundDown page (lo r) ≤ x ∧ x < roundUp page (hi r)

def adopted (page : Nat) : Nat → List GuestRange → List GuestRange
  | _, [] => []
  | taken, r :: rest =>
    if taken ≤ roundDown page (lo r)
    then r :: adopted page (roundUp page (hi r)) rest
    else adopted page taken rest

theorem lo_le_hi (r : GuestRange) : lo r ≤ hi r := Nat.le_add_right _ _

theorem mem_adopted {page : Nat} (hpp : 0 < page) {q : GuestRange} :
    ∀ {l : List GuestRange} {taken : Nat}, q ∈ adopted page taken l →
    q ∈ l ∧ taken ≤ roundDown page (lo q) := by
  intro l
  induction l with
  | nil =>
    intro taken hq
    cases hq
  | cons r _ ih =>
    intro taken hq
    rw [adopted] at hq
    split at hq
    next hle =>
      rcases List.mem_cons.mp hq with rfl | hq
      · exact ⟨List.mem_cons_self, hle⟩
      · obtain ⟨hmem, hbound⟩ := ih hq
        have h1 := roundDown_le page (lo r)
        have h2 := lo_le_hi r
        have h3 := le_roundUp hpp (hi r)
        exact ⟨List.mem_cons_of_mem _ hmem, by omega⟩
    · obtain ⟨hmem, hbound⟩ := ih hq
      exact ⟨List.mem_cons_of_mem _ hmem, hbound⟩

theorem adopted_of_apart {page : Nat} {q : GuestRange} : ∀ {l : List GuestRange} {taken : Nat},
      l.Pairwise (fun q r => roundUp page (hi q) ≤ roundDown page (lo r)) →
      q ∈ l → taken ≤ roundDown page (lo q) → q ∈ adopted page taken l := by
  intro l
  induction l with
  | nil =>
    intro taken _ hq
    cases hq
  | cons r _ ih =>
    intro taken hsort hq hle
    obtain ⟨hr, hrest⟩ := List.pairwise_cons.mp hsort
    rw [adopted]
    rcases List.mem_cons.mp hq with rfl | hmem
    · rw [if_pos hle]
      exact List.mem_cons_self
    · split
      · exact List.mem_cons_of_mem _ (ih hrest hmem (hr q hmem))
      · exact ih hrest hmem hle

structure Copied (gp : Geometry) (A : List GuestRange) (c c' : GuestAddressSpace) : Prop where
  inv : c'.ListInv
  geometry : c'.toGeometry = c.toGeometry
  edges : Edges (c.page ∣ ·) c.committed → Edges (c.page ∣ ·) c'.committed
  owned : ∀ q ∈ A, ∀ k, OnPages gp.page q (gp.base.toNat + k) → ∃ epoch w,
    (w = false ∨ w = q.protection.has kGuestProtWrite) ∧
    (q.written = true → w = q.protection.has kGuestProtWrite) ∧
    c'.layout.attr (c.base.toNat + k) = some ⟨q.protection, epoch, w⟩
  other : ∀ y, (∀ q ∈ A, ∀ k, y = c.base.toNat + k → ¬ OnPages gp.page q (gp.base.toNat + k)) →
    c'.layout.attr y = c.layout.attr y
  free : ∀ y, Covers c'.free y ↔ Covers c.free y ∧ ∀ q ∈ A, ∀ k,
    y = c.base.toNat + k → ¬ OnPages gp.page q (gp.base.toNat + k)

theorem onPages_iff (hw : hi r < 2 ^ 64) (k : Nat) :
    OnPages gp.page r (gp.base.toNat + k) ↔ (pieceOf r).low gp ≤ k ∧ k < (pieceOf r).high gp := by
  have hlow : (pieceOf r).low gp = roundDown gp.page (lo r) - gp.base.toNat := rfl
  have hhigh : (pieceOf r).high gp = roundUp gp.page (hi r) - gp.base.toNat := by
    rw [← stop_toNat hw]
    rfl
  rw [OnPages]
  omega

theorem Copied.cons {A : List GuestRange} {c₁ c₂ : GuestAddressSpace} (hw : hi r < 2 ^ 64)
    (hp : (pieceOf r).Inside gp) (h₁ : Adopts gp (pieceOf r) c c₁) (h₂ : Copied gp A c₁ c₂)
    (hA : ∀ q ∈ A, roundUp gp.page (hi r) ≤ roundDown gp.page (lo q)) :
    Copied gp (r :: A) c c₂ := by
  have hgeo := h₁.geometry
  have hbase : c₁.base = c.base := congrArg base hgeo
  have hpage : c₁.page = c.page := congrArg page hgeo
  have hon := @onPages_iff r gp hw
  obtain ⟨epoch, w, hw1, hw2, hlay⟩ := h₁.placed
  have hedges := h₂.edges
  have howned := h₂.owned
  have hother := h₂.other
  have hfree := h₂.free
  rw [hbase] at howned hother hfree
  rw [hpage] at hedges
  refine ⟨h₂.inv, h₂.geometry.trans hgeo, fun hB => hedges (h₁.edges hB), ?_, ?_, ?_⟩
  · intro q hq k hk
    rcases List.mem_cons.mp hq with rfl | hq
    · refine ⟨epoch, w, hw1, hw2, ?_⟩
      rw [hother _ fun q' hq' k' hk' hon' => ?_, hlay, Layout.place_attr, if_pos]
      · rfl
      · have := (hon k).mp hk
        omega
      · have h1 := hA q' hq'
        have h2 := hk.2
        have h3 := hon'.1
        omega
    · exact howned q hq k hk
  · intro y hy
    rw [hother y fun q hq => hy q (List.mem_cons_of_mem _ hq), hlay, Layout.place_attr, if_neg]
    intro hin
    refine hy r List.mem_cons_self (y - c.base.toNat) (by omega) ((hon _).mpr ?_)
    omega
  · intro y
    have hone : Covers c₁.free y ↔ Covers c.free y ∧ ∀ k, y = c.base.toNat + k →
        ¬ OnPages gp.page r (gp.base.toNat + k) := by
      refine (Set.ext_iff.mp (congrArg Layout.free hlay) y).trans ?_
      rw [Layout.place_free, Set.mem_sdiff, Set.mem_Ico, layout_free]
      refine and_congr_right fun _ => ⟨fun hno k hk hon' => hno ?_, fun hno hin => ?_⟩
      · have := (hon k).mp hon'
        omega
      · exact hno (y - c.base.toNat) (by omega) ((hon _).mpr (by omega))
    rw [hfree, hone, List.forall_mem_cons, and_assoc]

theorem remapAll_copied {l : List GuestRange} :
    ∀ {taken : Nat} {c : GuestAddressSpace} {h : Host}, Twin gp c.toGeometry → c.ListInv →
    h.Succeeds → Wf l → (∀ r ∈ l, (pieceOf r).Inside gp) →
    (∀ k, taken ≤ gp.base.toNat + k → k < c.size.toNat → Covers c.free (c.base.toNat + k)) →
    (∀ r ∈ l, roundDown gp.page (lo r) < taken →
      ¬ Covers c.free (c.base.toNat + (pieceOf r).low gp)) → Copied gp (adopted gp.page taken l) c
      (remapAll gp.pageSize (c.base - gp.base) (l.map pieceOf) c h).1 := by
  induction l with
  | nil =>
    intro taken c h _ hc _ _ _ _ _
    exact ⟨hc, rfl, id, fun q hq => (nomatch hq), fun _ _ => rfl,
      fun y => by simp [adopted, remapAll]⟩
  | cons r _ ih =>
    intro taken c h ht hc hh hl hin hfree htaken
    obtain ⟨hproper, hafter, hrest⟩ := wf_cons.mp hl
    have hp := hin r List.mem_cons_self
    have hon := @onPages_iff r gp hproper.fits
    have hr := hp.rounded
    have hrpos := hr.pos
    have hrsize := hr.size
    have hroom := ht.room
    have hlow : (pieceOf r).low gp = roundDown gp.page (lo r) - gp.base.toNat := rfl
    have hhost := (remap_host ht hh hp).succeeds
    have hspace := remap_space h ht hc hp
    rw [List.map_cons, remapAll, adopted]
    generalize remap gp.pageSize (c.base - gp.base) (pieceOf r) c h = out at hhost hspace
    obtain ⟨c₁, h₁⟩ := out
    -- A range is taken exactly when it begins past `taken`.
    have hiff : taken ≤ roundDown gp.page (lo r) ↔ (pieceOf r).Free gp c := by
      refine ⟨fun hle k h1 h2 => hfree k (by omega) (by omega), fun hf => ?_⟩
      by_contra hlt
      exact htaken r List.mem_cons_self (by omega) (hf _ le_rfl hrpos)
    rcases hspace with ⟨rfl, hno⟩ | ⟨hf, hadopt⟩
    · rw [if_neg (fun hle => hno hh (hiff.mp hle))]
      exact ih ht hc hhost hrest (fun q hq => hin q (List.mem_cons_of_mem _ hq)) hfree
        (fun q hq => htaken q (List.mem_cons_of_mem _ hq))
    · rw [if_pos (hiff.mpr hf)]
      have hgeo := hadopt.geometry
      have hb : c₁.base = c.base := congrArg base hgeo
      have hsz : c₁.size = c.size := congrArg size hgeo
      obtain ⟨_, w, _, _, hlay⟩ := hadopt.placed
      have hcov : ∀ y, Covers c₁.free y ↔ Covers c.free y ∧
          ¬ (c.base.toNat + (pieceOf r).low gp ≤ y ∧
            y < c.base.toNat + (pieceOf r).high gp) := fun y =>
        Set.ext_iff.mp (congrArg Layout.free hlay) y
      rw [← hb]
      refine Copied.cons hproper.fits hp hadopt
        (ih (by rw [hgeo]; exact ht) hadopt.inv hhost hrest
          (fun q hq => hin q (List.mem_cons_of_mem _ hq)) ?_ ?_)
        (fun q hq => (mem_adopted gp.page_pos hq).2)
      · intro k hk hks
        rw [hb, hcov]
        have h3 := le_roundUp gp.page_pos (hi r)
        have h4 := lo_le_hi r
        have h5 := roundDown_le gp.page (lo r)
        have h6 := hiff.mpr hf
        refine ⟨hfree k (by omega) (by rw [hsz] at hks; exact hks), fun hin' => ?_⟩
        have := ((hon k).mpr (by omega)).2
        omega
      · intro q hq hlt hc'
        rw [hb, hcov] at hc'
        have hmono : roundDown gp.page (lo r) ≤ roundDown gp.page (lo q) :=
          roundDown_mono gp.page_pos (Nat.le_trans (lo_le_hi r) (hafter q hq))
        have hqlow : (pieceOf q).low gp = roundDown gp.page (lo q) - gp.base.toNat := rfl
        have := (hon ((pieceOf q).low gp)).mp ⟨by omega, by omega⟩
        exact hc'.2 (by omega)

/-! ## What the child owns -/

theorem GuestAddressSpace.Sane.inside (hs : s.Sane) (hr : r ∈ s.committed) :
    (pieceOf r).Inside s.toGeometry := by
  have hp := hs.inv.committed.proper r hr
  have hne := hp.nonempty
  have hattr : ∀ x, Has r x → s.base.toNat ≤ x ∧ x < s.limit := fun x hx =>
    hs.arena x _ (hs.inv.committed.tagAt_eq_some.mpr ⟨r, hr, hx, rfl⟩)
  have hfirst := hattr (lo r) ⟨le_rfl, hne⟩
  have hlast := hattr (hi r - 1) ⟨by omega, by omega⟩
  have hstop : (pieceOf r).stop.toNat = hi r := stop_toNat hp.fits
  refine ⟨hfirst.1, ?_, by omega⟩
  rw [hstop]
  have h1 : roundDown s.page (pieceOf r).begin.toNat ≤ lo r := roundDown_le s.page (lo r)
  have h2 := le_roundUp s.page_pos (hi r)
  exact h1.trans_lt (Nat.lt_of_lt_of_le hne h2)

def GuestAddressSpace.copied (s : GuestAddressSpace) : List GuestRange :=
  adopted s.page (s.base.toNat + 65536) s.committed

structure Fresh (c : GuestAddressSpace) : Prop where
  free : c.free = (new c.toGeometry).free
  committed : c.committed = []

theorem fresh_new (g : Geometry) : Fresh (new g) := ⟨rfl, rfl⟩

theorem fresh_newArena (is32bit : Bool) (g : Geometry) : Fresh (newArena is32bit g) := ⟨rfl, rfl⟩

theorem Fresh.attr (hf : Fresh c) (y : Nat) : c.layout.attr y = none := by
  rw [layout_attr, hf.committed]
  rfl

theorem Fresh.covers (hf : Fresh c) (y : Nat) :
    Covers c.free y ↔ c.base.toNat + 65536 ≤ y ∧ y < c.limit := by
  rw [hf.free]
  exact covers_new c.toGeometry y

theorem Fresh.sane (hf : Fresh c) : c.Sane := by
  obtain ⟨hfree, hedges, _, _, _⟩ := listInv_new c.toGeometry
  rw [← hf.free] at hfree hedges
  have hnone : ∀ x t, c.layout.attr x ≠ some t := fun x t ht => by
    rw [hf.attr] at ht
    cases ht
  refine ⟨⟨hfree, hedges, ?_, ?_, fun x _ => hf.attr x⟩, fun x t ht => absurd ht (hnone x t),
    fun x t ht => absurd ht (hnone x t)⟩
  · rw [hf.committed]
    exact wf_nil
  · rw [hf.committed]
    exact fun _ h => (nomatch h)

theorem copyAddressSpace_layout {h : Host} (hs : s.Sane) (hf : Fresh c)
    (ht : Twin s.toGeometry c.toGeometry) (hh : h.Succeeds) :
    Copied s.toGeometry s.copied c (copyAddressSpace s c [] h).1 := by
  have hlim : c.limit = c.base.toNat + c.size.toNat := rfl
  rw [copyAddressSpace, forkPieces_nil]
  refine remapAll_copied ht hf.sane.inv hh hs.inv.committed
    (fun r hr => hs.inside hr) (fun k hk hsz => ?_) (fun r hr hlt hc => ?_)
  · exact (hf.covers _).mpr ⟨by omega, by omega⟩
  · have hge := ((hf.covers _).mp hc).1
    change c.base.toNat + 65536 ≤ c.base.toNat + (roundDown s.page (lo r) - s.base.toNat) at hge
    omega

/-- Every byte the parent owns, the child owns at the same offset with at least
the same protection, and will not hand out. -/
def KeepsAll (parent child : GuestAddressSpace) : Prop :=
  ∀ k t, parent.layout.attr (parent.base.toNat + k) = some t →
  (∃ t', child.layout.attr (child.base.toNat + k) = some t' ∧
    Prot.le t.protection t'.protection) ∧ ¬ Covers child.free (child.base.toNat + k)

/-- Every range lies on pages of ranges that get through, whose protection is
at least its own. -/
def PagesCover (s : GuestAddressSpace) : Prop :=
  ∀ r ∈ s.committed, ∀ x, Has r x →
  ∃ q ∈ s.copied, OnPages s.page q x ∧ Prot.le r.protection q.protection

theorem Copied.owner {A : List GuestRange} {c' : GuestAddressSpace} (hc : Copied gp A c c')
    (hnone : ∀ y, c.layout.attr y = none) {k : Nat} {t : Attr}
    (ht : c'.layout.attr (c.base.toNat + k) = some t) :
    ∃ q ∈ A, OnPages gp.page q (gp.base.toNat + k) ∧ t.protection = q.protection ∧
    (t.written = false ∨ t.written = q.protection.has kGuestProtWrite) ∧
    (q.written = true → t.written = q.protection.has kGuestProtWrite) := by
  by_contra hno
  rw [hc.other _ fun q hq k' hk' hon => hno ?_, hnone] at ht
  · cases ht
  · have hkk : k' = k := by omega
    subst hkk
    obtain ⟨_, w, hw1, hw2, hattr⟩ := hc.owned q hq k' hon
    rw [ht] at hattr
    rw [Option.some.inj hattr]
    exact ⟨q, hq, hon, rfl, hw1, hw2⟩

theorem pagesCover_of_apart
    (hsort : s.committed.Pairwise (fun q r => roundUp s.page (hi q) ≤ roundDown s.page (lo r)))
    (hlow : ∀ r ∈ s.committed, s.base.toNat + 65536 ≤ roundDown s.page (lo r)) : PagesCover s := by
  intro r hr x hx
  refine ⟨r, adopted_of_apart hsort hr (hlow r hr), ⟨?_, ?_⟩, Prot.le_refl _⟩
  · exact Nat.le_trans (roundDown_le _ _) hx.1
  · exact Nat.lt_of_lt_of_le hx.2 (le_roundUp s.page_pos _)

/-- Which parents a fork copies whole. -/
theorem copyAddressSpace_keeps_iff {g : Geometry} {m : Machine}
    (hr : Reaches g (fun m c => c.Guest ∧ ¬ c.Splits m.space) m) {child : GuestAddressSpace}
    (hf : Fresh child) (ht : Twin g child.toGeometry) {h : Host} (hh : h.Succeeds) :
    KeepsAll m.space (copyAddressSpace m.space child [] h).1 ↔ PagesCover m.space := by
  obtain ⟨hs, rfl⟩ := hr.sane fun _ _ h => h
  have hcopy := copyAddressSpace_layout hs hf ht hh
  have hbase : (copyAddressSpace m.space child [] h).1.base = child.base :=
    congrArg base hcopy.geometry
  constructor
  · intro hkeep r hr x hx
    have hattr : m.space.layout.attr x = some (tag r) :=
      hs.inv.committed.tagAt_eq_some.mpr ⟨r, hr, hx, rfl⟩
    have hin := (hs.arena x _ hattr).1
    obtain ⟨k, rfl⟩ := Nat.exists_eq_add_of_le hin
    obtain ⟨⟨t, ht', hle⟩, _⟩ := hkeep k _ hattr
    rw [hbase] at ht'
    obtain ⟨q, hq, hon, hprot, _⟩ := hcopy.owner hf.attr ht'
    rw [hprot] at hle
    exact ⟨q, hq, hon, hle⟩
  · intro hcover k t hattr
    obtain ⟨r, hr, hx, rfl⟩ := hs.inv.committed.tagAt_eq_some.mp hattr
    obtain ⟨q, hq, hon, hle⟩ := hcover r hr _ hx
    obtain ⟨_, w, _, _, howned⟩ := hcopy.owned q hq k hon
    rw [hbase]
    refine ⟨⟨_, howned, hle⟩, fun hc => ?_⟩
    exact ((hcopy.free _).mp hc).2 q hq k rfl hon

def holed : Machine :=
  (Call.release 0x100011000 0x1000).run
    ((Call.allocate 0x8000 0 3).run ⟨new oneMegabyte, Host.fresh⟩)

theorem reaches_holed : Reaches oneMegabyte (fun m c => c.Guest ∧ ¬ c.Splits m.space) holed :=
  ⟨Host.fresh, .tail
    (.single ⟨.allocate 0x8000 0 3, by unfold Call.InRange Call.Plain; decide, ⟨trivial, id⟩, rfl⟩)
    ⟨.release 0x100011000 0x1000, by unfold Call.InRange Call.Plain; decide, ⟨trivial, id⟩, rfl⟩⟩

theorem copyAddressSpace_loses_range :
    ∃ m, Reaches oneMegabyte (fun m c => c.Guest ∧ ¬ c.Splits m.space) m ∧
    Twin oneMegabyte nextMegabyte ∧ Host.fresh.Succeeds ∧ ¬ KeepsAll m.space
      (copyAddressSpace m.space (new nextMegabyte) [] Host.fresh).1 := by
  refine ⟨holed, reaches_holed, twin_megabytes, Host.succeeds_fresh, fun hkeep => ?_⟩
  obtain ⟨hs, -⟩ := reaches_holed.sane fun _ _ h => h
  have hcopy := copyAddressSpace_layout hs (fresh_new nextMegabyte)
    (by exact twin_megabytes) Host.succeeds_fresh
  have hcopied : holed.space.copied = [⟨0x100010000, 0x1000, 3, 1, true⟩] := by decide
  obtain ⟨⟨t, ht, _⟩, _⟩ := hkeep 0x14000 ⟨3, 1, true⟩ (by decide)
  obtain ⟨q, hq, hon, _⟩ := hcopy.owner (fun _ => rfl) ht
  rw [hcopied, List.mem_singleton] at hq
  subst hq
  exact absurd hon.2 (by decide)

theorem copyAddressSpace_keeps_onePage : KeepsAll onePage.space
        (copyAddressSpace onePage.space (new nextMegabyte) [] onePage.host).1 ∧
      PagesCover onePage.space := by
  have hcover : PagesCover onePage.space := by
    have hlist : onePage.space.committed = [⟨0x100010000, 0x4000, 3, 1, true⟩] := by decide
    refine pagesCover_of_apart ?_ ?_ <;> rw [hlist]
    · exact List.pairwise_singleton _ _
    · exact List.forall_mem_singleton.mpr (by decide)
  have hr : Reaches oneMegabyte (fun m c => c.Guest ∧ ¬ c.Splits m.space)
      ⟨onePage.space, onePage.host⟩ :=
    ⟨Host.fresh, .single ⟨.allocate 0x4000 0 3, by unfold Call.InRange Call.Plain; decide,
      ⟨trivial, id⟩, rfl⟩⟩
  exact ⟨(copyAddressSpace_keeps_iff hr (fresh_new _) twin_megabytes succeeds_onePage).mpr
    hcover, hcover⟩

end Fathom
