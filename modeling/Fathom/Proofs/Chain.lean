import Fathom.Proofs.Fork

/-!
# Chains of forks

A fork copies a range that was ever writable and only reserves one that never was. Which
of the two a range is, `written` says; but a child's flag is computed afresh from the
protection the range has at the fork.
-/

namespace Fathom

open Lib Spanned

namespace GuestAddressSpace

namespace Machine

variable (m : Machine)

def byte (k : Nat) : UInt8 := m.host.mem (m.space.base.toNat + k)

def attr (k : Nat) : Option Attr := m.space.layout.attr (m.space.base.toNat + k)

def Writable (k : Nat) : Prop :=
  ∃ t, m.attr k = some t ∧ t.protection.has kGuestProtWrite = true

def write (k : Nat) (v : UInt8) : Machine :=
  { m with host := { m.host with
      mem := fun x => if x = m.space.base.toNat + k then v else m.host.mem x } }

def fork (is32bit : Bool) (g : Geometry) : Machine :=
  let out := forkInto m.space is32bit g [] m.host
  ⟨out.1, out.2⟩

def NoSharedPages : Prop :=
  m.space.committed.Pairwise
    (fun q r => roundUp m.space.page (hi q) ≤ roundDown m.space.page (lo r))

def Flagged : Prop := ∀ k t, m.attr k = some t → m.byte k ≠ 0 → t.written = true

end Machine

open Machine

variable {r : GuestRange}

/-- The machines a guest's calls, its writes and its forks lead to, whatever
the host answers. -/
inductive Born : Machine → Prop
  | start {c : GuestAddressSpace} (hf : Fresh c) (h : Host) : Born ⟨c, h⟩
  | call {m : Machine} {c : Call} : Born m → c.Guest → c.InRange m.space.toGeometry →
      ¬ c.Splits m.space → Born (c.run m)
  | write {m : Machine} {k : Nat} (v : UInt8) : Born m → m.Writable k → Born (m.write k v)
  | fork {m : Machine} {g : Geometry} (is32bit : Bool) : Born m →
      Twin m.space.toGeometry g → Born (m.fork is32bit g)

inductive Chain (m : Machine) : List Nat → Nat → Machine → Prop
  | here : Chain m [] 0 m
  | write {ws : List Nat} {n : Nat} {m' : Machine} {k : Nat} (v : UInt8) :
      Chain m ws n m' → m'.Writable k → Chain m (k :: ws) n (m'.write k v)
  | fork {ws : List Nat} {n : Nat} {m' : Machine} {g : Geometry} (is32bit : Bool) :
      Chain m ws n m' → Twin m'.space.toGeometry g → Chain m ws (n + 1) (m'.fork is32bit g)

/-- However long the chain, what was owned and not written since reads the
same, and every range with something in it is flagged. -/
def Faithful (m : Machine) : Prop :=
  ∀ ws n m', Chain m ws n m' →
  (∀ k t, m.attr k = some t → k ∉ ws → m'.byte k = m.byte k) ∧ m'.Flagged

/-- A state that survives any number of forks: what is not zero is writable and
in a range past the lowest 64KB, and so are, for a range that will be copied,
the leftovers on its pages that no range owns. -/
structure Carried (m : Machine) : Prop where
  owned : ∀ r ∈ m.space.committed, ∀ k, Has r (m.space.base.toNat + k) → m.byte k ≠ 0 →
    r.protection.has kGuestProtWrite = true ∧ m.space.base.toNat + 65536 ≤ lo r
  pages : ∀ r ∈ m.space.committed, r.written = true → m.space.base.toNat + 65536 ≤ lo r →
    ∀ k, OnPages m.space.page r (m.space.base.toNat + k) → m.byte k ≠ 0 →
    r.protection.has kGuestProtWrite = true

/-! ## One fork -/

variable {s : GuestAddressSpace}

theorem Sane.range (hs : s.Sane) (hr : r ∈ s.committed)
    (hw : r.protection.has kGuestProtWrite = true) : r.written = true := by
  have hne := (hs.inv.committed.proper r hr).nonempty
  exact hs.flagged (lo r) (tag r)
    (hs.inv.committed.tagAt_eq_some.mpr ⟨r, hr, ⟨le_rfl, hne⟩, rfl⟩) hw

theorem Sane.pieces (hs : s.Sane) : ∀ p ∈ forkPieces s [], p.Inside s.toGeometry ∧
      (p.protection.has kGuestProtWrite = true → p.written = true) := by
  intro p hp
  rw [forkPieces_nil, List.mem_map] at hp
  obtain ⟨r, hr, rfl⟩ := hp
  exact ⟨hs.inside hr, hs.range hr⟩

variable {m : Machine}

theorem Sane.fork (hs : m.space.Sane) {g : Geometry} (ht : Twin m.space.toGeometry g)
    (is32bit : Bool) : (m.fork is32bit g).space.Sane ∧ (m.fork is32bit g).space.toGeometry = g :=
  remapAll_sane _ ht (fresh_newArena is32bit g).sane hs.pieces

theorem Born.sane (hb : Born m) : m.space.Sane := by
  induction hb with
  | start hf _ => exact hf.sane
  | call _ hguest hin hsplit ih => exact Call.run_sane ih hguest hin hsplit
  | write _ _ _ ih => exact ih
  | fork is32bit _ ht ih => exact (ih.fork ht is32bit).1

structure Forked (m m' : Machine) : Prop where
  sane : m'.space.Sane
  succeeds : m'.host.Succeeds
  room : m.space.size.toNat ≤ m'.space.size.toNat
  page : m'.space.page = m.space.page
  whole : Edges (m'.space.page ∣ ·) m'.space.committed
  owner : ∀ k t, m'.attr k = some t → ∃ r ∈ m.space.committed,
    m.space.base.toNat + 65536 ≤ lo r ∧ OnPages m.space.page r (m.space.base.toNat + k) ∧
    t.protection = r.protection ∧ t.written = r.protection.has kGuestProtWrite
  owned : ∀ r ∈ m.space.committed, m.space.base.toNat + 65536 ≤ lo r → ∀ k,
    OnPages m.space.page r (m.space.base.toNat + k) → ∃ t, m'.attr k = some t ∧
    t.protection = r.protection ∧ t.written = r.protection.has kGuestProtWrite
  copied : ∀ r ∈ m.space.committed, r.written = true → ∀ k,
    OnPages m.space.page r (m.space.base.toNat + k) → m'.byte k = m.byte k
  zero : ∀ k, k < m.space.size.toNat → (∀ r ∈ m.space.committed, r.written = true →
    ¬ OnPages m.space.page r (m.space.base.toNat + k)) → m'.byte k = 0

theorem written_of_copy {w : Bool}
    (hflag : r.protection.has kGuestProtWrite = true → r.written = true)
    (h1 : w = false ∨ w = r.protection.has kGuestProtWrite)
    (h2 : r.written = true → w = r.protection.has kGuestProtWrite) :
    w = r.protection.has kGuestProtWrite := by
  cases hw : r.protection.has kGuestProtWrite with
  | true => rw [h2 (hflag hw), hw]
  | false => rwa [hw, or_self] at h1

theorem Machine.fork_spec (hs : m.space.Sane) (hh : m.host.Succeeds) (hns : m.NoSharedPages)
    {g : Geometry} (ht : Twin m.space.toGeometry g) (is32bit : Bool) :
    Forked m (m.fork is32bit g) := by
  have hmap := hh.mapFresh g.base g.size
  obtain ⟨hsane, hgeo⟩ := hs.fork ht is32bit
  have hfresh := fresh_newArena is32bit g
  have hcopy := copyAddressSpace_layout hs hfresh ht hmap.2
  have hhost := remapAll_host ht hfresh.sane.inv hmap.2 (fun p hp => (hs.pieces p hp).1)
  have hbase : (m.fork is32bit g).space.base = g.base := congrArg Geometry.base hgeo
  have hpage : (m.fork is32bit g).space.page = m.space.page := by
    rw [hgeo]
    exact ht.page_eq
  have hlow : ∀ r : GuestRange, m.space.base.toNat + 65536 ≤ roundDown m.space.page (lo r) ↔
      m.space.base.toNat + 65536 ≤ lo r := fun r =>
    le_roundDown_iff m.space.page_pos
      (Nat.dvd_add m.space.base_aligned (lowestUsable_dvd m.space.toGeometry))
  have hpiece : ∀ r ∈ m.space.committed, pieceOf r ∈ forkPieces m.space [] := by
    intro r hr
    rw [forkPieces_nil]
    exact List.mem_map_of_mem hr
  have hon : ∀ r ∈ m.space.committed, ∀ k,
      OnPages m.space.page r (m.space.base.toNat + k) ↔
        (pieceOf r).low m.space.toGeometry ≤ k ∧ k < (pieceOf r).high m.space.toGeometry :=
    fun r hr => onPages_iff (hs.inv.committed.proper r hr).fits
  have hroom := ht.room
  have hapart := ht.apart
  have hlim : m.space.limit = m.space.base.toNat + m.space.size.toNat := rfl
  have hlim' : g.limit = g.base.toNat + g.size.toNat := rfl
  -- Mapping the child's span zeroes it and leaves the parent's alone.
  have hspan : ∀ y, (m.host.mapFreshAnonymous g.base g.size).2.mem y =
      if g.base.toNat ≤ y ∧ y < g.limit then 0 else m.host.mem y := by
    intro y
    rw [hh.mapFresh_mem]
    simp only [Host.inSpan_iff, hlim']
  refine ⟨hsane, hhost.succeeds, by rw [hgeo]; exact hroom, hpage, ?_, ?_, ?_, ?_, ?_⟩
  · rw [hgeo]
    exact hcopy.edges (fun _ h => (nomatch h))
  · intro k t hk
    rw [attr, hbase] at hk
    obtain ⟨q, hq, hq', hprot, hw1, hw2⟩ := hcopy.owner hfresh.attr hk
    obtain ⟨hmem, hle⟩ := mem_adopted m.space.page_pos hq
    exact ⟨q, hmem, (hlow q).mp hle, hq', hprot, written_of_copy (hs.range hmem) hw1 hw2⟩
  · intro r hr hle k hk
    obtain ⟨_, w, hw1, hw2, hattr⟩ := hcopy.owned r
      (adopted_of_apart hns hr ((hlow r).mpr hle)) k hk
    rw [attr, hbase]
    exact ⟨_, hattr, rfl, written_of_copy (hs.range hr) hw1 hw2⟩
  · intro r hr hw k hk
    have hin := (hon r hr k).mp hk
    have hsize := (hs.inside hr).rounded.size
    rw [byte, hbase]
    refine (hhost.copied _ (hpiece r hr) hw k hin.1 hin.2).trans ?_
    rw [hspan, if_neg (by omega)]
    rfl
  · intro k hk hno
    rw [byte, hbase]
    refine (hhost.kept _ ?_).trans ?_
    · intro p hp hw k' hk' hin
      rw [forkPieces_nil, List.mem_map] at hp
      obtain ⟨r, hr, rfl⟩ := hp
      have hkk : k' = k := by
        change g.base.toNat + k = g.base.toNat + k' at hk'
        omega
      subst hkk
      exact hno r hr hw ((hon r hr k').mpr hin)
    · rw [hspan, if_pos (by omega)]

/-! ## The ranges of a machine -/

theorem Machine.attr_iff (hs : m.space.Sane) {k : Nat} {t : Attr} :
    m.attr k = some t ↔ ∃ r ∈ m.space.committed, Has r (m.space.base.toNat + k) ∧ tag r = t :=
  hs.inv.committed.tagAt_eq_some

theorem OnPages.of_has {x : Nat} (h : Has r x) : OnPages s.page r x :=
  ⟨Nat.le_trans (roundDown_le _ _) h.1, Nat.lt_of_lt_of_le h.2 (le_roundUp s.page_pos _)⟩

theorem onPages_unique {page : Nat} {l : List GuestRange}
    (hl : l.Pairwise (fun q r => roundUp page (hi q) ≤ roundDown page (lo r))) {q : GuestRange}
    (hq : q ∈ l) (hr : r ∈ l) {x : Nat} (h1 : OnPages page q x) (h2 : OnPages page r x) :
    q = r := by
  induction l with
  | nil => cases hq
  | cons a _ ih =>
    obtain ⟨ha, hrest⟩ := List.pairwise_cons.mp hl
    unfold OnPages at h1 h2
    rcases List.mem_cons.mp hq with hq' | hq' <;>
      rcases List.mem_cons.mp hr with hr' | hr'
    · rw [hq', hr']
    · have := ha r hr'
      rw [hq'] at h1
      omega
    · have := ha q hq'
      rw [hr'] at h2
      omega
    · exact ih hrest hq' hr'

section Child

variable {r : GuestRange} {m m' : Machine}

section

variable (hf : Forked m m')
include hf

theorem Forked.onPages (hr : r ∈ m'.space.committed) {x : Nat} :
    OnPages m'.space.page r x ↔ Has r x := by
  obtain ⟨hlo, hhi⟩ := hf.whole r hr
  unfold OnPages Has
  rw [roundDown_of_dvd hlo, roundUp_of_dvd m'.space.page_pos hhi]

theorem Forked.noSharedPages : m'.NoSharedPages := by
  refine hf.sane.inv.committed.apart.imp_of_mem fun {q r} hq hr hle => ?_
  rw [roundDown_of_dvd (hf.whole r hr).1, roundUp_of_dvd m'.space.page_pos (hf.whole q hq).2]
  exact hle

theorem Forked.source (hr : r ∈ m'.space.committed) {k : Nat} (hk : Has r (m'.space.base.toNat + k))
    : ∃ q ∈ m.space.committed, m.space.base.toNat + 65536 ≤ lo q ∧
    OnPages m.space.page q (m.space.base.toNat + k) ∧
    r.protection = q.protection ∧ r.written = q.protection.has kGuestProtWrite :=
  hf.owner k (tag r) ((attr_iff hf.sane).mpr ⟨r, hr, hk, rfl⟩)

theorem Forked.low (hr : r ∈ m'.space.committed) : m'.space.base.toNat + 65536 ≤ lo r := by
  have hne := (hf.sane.inv.committed.proper r hr).nonempty
  have hbase := (hf.sane.arena (lo r) (tag r) (hf.sane.inv.committed.tagAt_eq_some.mpr
    ⟨r, hr, ⟨le_rfl, hne⟩, rfl⟩)).1
  obtain ⟨k, hk⟩ := Nat.exists_eq_add_of_le hbase
  obtain ⟨q, hq, hle, hon, _⟩ := hf.source (k := k) hr ⟨by omega, by omega⟩
  have hdvd : m.space.page ∣ m.space.base.toNat + 65536 :=
    Nat.dvd_add m.space.base_aligned (lowestUsable_dvd m.space.toGeometry)
  have h1 := (le_roundDown_iff m.space.page_pos hdvd).mpr hle
  have h2 := hon.1
  omega

theorem Forked.of_ne_zero {k : Nat} (hk : k < m.space.size.toNat) (hne : m'.byte k ≠ 0) :
    ∃ r ∈ m.space.committed, r.written = true ∧
    OnPages m.space.page r (m.space.base.toNat + k) ∧ m'.byte k = m.byte k := by
  by_contra hno
  refine hne (hf.zero k hk fun r hr hw hon => hno ⟨r, hr, hw, hon, hf.copied r hr hw k hon⟩)

end

end Child

variable {ws : List Nat} {m' : Machine}

/-! ## The chain -/

structure Kept (m : Machine) (ws : List Nat) (m' : Machine) : Prop where
  sane : m'.space.Sane
  succeeds : m'.host.Succeeds
  room : m.space.size.toNat ≤ m'.space.size.toNat
  apart : m'.NoSharedPages
  value : ∀ k t, m.attr k = some t → k ∉ ws → m'.byte k = m.byte k
  held : ∀ k t, m.attr k = some t → k ∉ ws → m.byte k ≠ 0 →
    ∃ r ∈ m'.space.committed, Has r (m'.space.base.toNat + k) ∧
      r.protection.has kGuestProtWrite = true ∧ m'.space.base.toNat + 65536 ≤ lo r
  clean : ∀ r ∈ m'.space.committed, ∀ k, Has r (m'.space.base.toNat + k) →
    m'.byte k ≠ 0 → r.protection.has kGuestProtWrite = true
  pages : ∀ r ∈ m'.space.committed, r.written = true → m'.space.base.toNat + 65536 ≤ lo r →
    ∀ k, OnPages m'.space.page r (m'.space.base.toNat + k) → m'.byte k ≠ 0 →
    r.protection.has kGuestProtWrite = true

theorem Carried.kept (hc : Carried m) (hs : m.space.Sane) (hh : m.host.Succeeds)
    (hns : m.NoSharedPages) : Kept m [] m := by
  refine ⟨hs, hh, le_rfl, hns, fun _ _ _ _ => rfl, fun k t hk _ hne => ?_,
    fun r hr k hk hne => (hc.owned r hr k hk hne).1, hc.pages⟩
  obtain ⟨r, hr, hx, _⟩ := (attr_iff hs).mp hk
  exact ⟨r, hr, hx, hc.owned r hr k hx hne⟩

theorem Machine.byte_write (m : Machine) (k : Nat) (v : UInt8) (j : Nat) :
    (m.write k v).byte j = if j = k then v else m.byte j := by
  unfold byte write
  simp only [Nat.add_left_cancel_iff]

theorem Kept.write (hk : Kept m ws m') {k : Nat} (hw : m'.Writable k) (v : UInt8) :
    Kept m (k :: ws) (m'.write k v) := by
  obtain ⟨t, ht, hprot⟩ := hw
  obtain ⟨q, hq, hqk, rfl⟩ := (attr_iff hk.sane).mp ht
  refine ⟨hk.sane, hk.succeeds, hk.room, hk.apart, fun j t hj hmem => ?_,
    fun j t hj hmem => hk.held j t hj fun h => hmem (List.mem_cons_of_mem _ h),
    fun r hr j hj hne => ?_, fun r hr hwr hlow j hj hne => ?_⟩
  · rw [List.mem_cons, not_or] at hmem
    rw [byte_write, if_neg hmem.1]
    exact hk.value j t hj hmem.2
  · rw [byte_write] at hne
    split at hne
    next heq =>
      subst heq
      rw [hk.sane.inv.committed.eq_of_has hr hq hj hqk]
      exact hprot
    · exact hk.clean r hr j hj hne
  · rw [byte_write] at hne
    split at hne
    next heq =>
      subst heq
      rw [onPages_unique hk.apart hr hq hj (OnPages.of_has hqk)]
      exact hprot
    · exact hk.pages r hr hwr hlow j hj hne

theorem Kept.fork {m'' : Machine} (hs : m.space.Sane) (hk : Kept m ws m') (hf : Forked m' m'') :
    Kept m ws m'' := by
  have hlim : m.space.limit = m.space.base.toNat + m.space.size.toNat := rfl
  have hroom := hk.room
  have hsize : ∀ k t, m.attr k = some t → k < m'.space.size.toNat := by
    intro k t ht
    have := hs.arena _ _ ht
    omega
  have hclean : ∀ r ∈ m''.space.committed, ∀ k, Has r (m''.space.base.toNat + k) →
      m''.byte k ≠ 0 → r.protection.has kGuestProtWrite = true := by
    intro r hr k hx hne
    obtain ⟨q, hq, hlow, hon, hprot, _⟩ := hf.source hr hx
    have hin := (hk.sane.inside hq).rounded.size
    have hkin := ((onPages_iff (hk.sane.inv.committed.proper q hq).fits k).mp hon).2
    obtain ⟨q', hq', hwr, hon', hcopy⟩ := hf.of_ne_zero (by omega) hne
    obtain rfl := onPages_unique hk.apart hq hq' hon hon'
    rw [hprot]
    refine hk.pages q hq hwr hlow k hon ?_
    rwa [← hcopy]
  refine ⟨hf.sane, hf.succeeds, hroom.trans hf.room, hf.noSharedPages, ?_, ?_, hclean, ?_⟩
  · intro k t ht hmem
    have hval := hk.value k t ht hmem
    by_cases hzero : m.byte k = 0
    · by_contra hne
      rw [hzero] at hne
      obtain ⟨_, _, _, _, hcopy⟩ := hf.of_ne_zero (hsize k t ht) hne
      exact hne (hcopy.trans (hval.trans hzero))
    · obtain ⟨r, hr, hx, hw, _⟩ := hk.held k t ht hmem hzero
      rw [hf.copied r hr (hk.sane.range hr hw) k (OnPages.of_has hx)]
      exact hval
  · intro k t ht hmem hne
    obtain ⟨r, hr, hx, hw, hlow⟩ := hk.held k t ht hmem hne
    obtain ⟨u, hu, hprot, _⟩ := hf.owned r hr hlow k (OnPages.of_has hx)
    obtain ⟨q, hq, hqx, rfl⟩ := (attr_iff hf.sane).mp hu
    refine ⟨q, hq, hqx, ?_, hf.low hq⟩
    change q.protection = r.protection at hprot
    rw [hprot]
    exact hw
  · intro r hr _ _ k hon
    exact hclean r hr k ((hf.onPages hr).mp hon)

theorem Chain.kept {n : Nat} (hs : m.space.Sane) (h0 : Kept m [] m) (hc : Chain m ws n m') :
    Kept m ws m' := by
  induction hc with
  | here => exact h0
  | write v _ hw ih => exact ih.write hw v
  | fork is32bit _ ht ih =>
    exact ih.fork hs (fork_spec ih.sane ih.succeeds ih.apart ht is32bit)

/-- Which states every chain of forks is faithful to, where there is room for
two. -/
theorem chain_faithful_iff {m : Machine} (hb : Born m) (hh : m.host.Succeeds)
    (hns : m.NoSharedPages) {g g' : Geometry} (ht : Twin m.space.toGeometry g)
    (ht' : Twin g g') : Faithful m ↔ Carried m := by
  have hs := hb.sane
  constructor
  · intro hfaith
    have hgeo := (hs.fork ht false).2
    have f₁ := fork_spec hs hh hns ht false
    have f₂ := fork_spec f₁.sane f₁.succeeds f₁.noSharedPages
      (by rw [hgeo]; exact ht') false
    have c₁ : Chain m [] 1 (m.fork false g) := .fork false .here ht
    have c₂ : Chain m [] 2 ((m.fork false g).fork false g') :=
      .fork false c₁ (by rw [hgeo]; exact ht')
    refine ⟨fun r hr k hx hne => ?_, fun r hr hw hlow k hon hne => ?_⟩
    · -- Read back after two forks, the byte must come from a flagged range of the child.
      have hattr : m.attr k = some (tag r) := (attr_iff hs).mpr ⟨r, hr, hx, rfl⟩
      have hlim : m.space.limit = m.space.base.toNat + m.space.size.toNat := rfl
      have hin := (hs.arena _ _ hattr).2
      have hroom := f₁.room
      have hval := (hfaith _ _ _ c₂).1 k _ hattr List.not_mem_nil
      rw [← hval] at hne
      obtain ⟨q, hq, hqw, hqon, _⟩ := f₂.of_ne_zero (by omega) hne
      obtain ⟨r', hr', hlow, hon, _, hw⟩ := f₁.source hq ((f₁.onPages hq).mp hqon)
      obtain rfl := onPages_unique hns hr hr' (OnPages.of_has hx) hon
      exact ⟨by rw [← hw]; exact hqw, hlow⟩
    · obtain ⟨t, hattr, _, hflag⟩ := f₁.owned r hr hlow k hon
      rw [← hflag]
      refine (hfaith _ _ _ c₁).2 k t hattr ?_
      rw [f₁.copied r hr hw k hon]
      exact hne
  · intro hc ws n m' hch
    have hk := hch.kept hs (hc.kept hs hh hns)
    refine ⟨hk.value, fun k t hattr hne => ?_⟩
    obtain ⟨r, hr, hx, rfl⟩ := (attr_iff hk.sane).mp hattr
    exact hk.sane.range hr (hk.clean r hr k hx hne)

def sealedPage : Machine :=
  (Call.protect 0x100010000 0x4000 1).run
    (((Call.allocate 0x4000 0 3).run ⟨new Geometry.oneMegabyte, Host.fresh⟩).write 0x10000 7)

theorem twin_megabytes_back : Twin Geometry.nextMegabyte Geometry.oneMegabyte :=
  ⟨rfl, le_rfl, .inr (by decide)⟩

theorem chain_forgets_sealed : ∃ m m₁ m₂, Born m ∧ m.host.Succeeds ∧ m.NoSharedPages ∧ Chain m []
    1 m₁ ∧ Chain m [] 2 m₂ ∧ m.attr 0x10000 = some ⟨1, 1, true⟩ ∧ m.byte 0x10000 = 7 ∧
    m₁.attr 0x10000 = some ⟨1, 1, false⟩ ∧ m₁.byte 0x10000 = 7 ∧ m₂.byte 0x10000 = 0 := by
  have c₁ : Chain sealedPage [] 1 (sealedPage.fork false Geometry.nextMegabyte) :=
    .fork false .here twin_megabytes
  have c₂ := Chain.fork false c₁ twin_megabytes_back
  refine ⟨sealedPage, _, _, ?_, fun _ _ => rfl, ?_, c₁, c₂, by decide, by decide, by decide,
    by decide, by decide⟩
  · refine .call (.write 7 (.call (.start (fresh_new _) Host.fresh)
      trivial (by unfold Call.InRange Call.Plain; decide) id) ⟨⟨3, 1, true⟩, by decide, by decide⟩)
      trivial (by unfold Call.InRange Call.Plain; decide) fun h => ?_
    exact absurd h.1 (by decide)
  · exact List.pairwise_singleton _ _

theorem chain_faithful_onePage : Faithful (write ⟨onePage.space, onePage.host⟩ 0x10000 7) ∧
      Carried (write ⟨onePage.space, onePage.host⟩ 0x10000 7) := by
  have hlist : onePage.space.committed = [⟨0x100010000, 0x4000, 3, 1, true⟩] := by decide
  have hborn : Born (write ⟨onePage.space, onePage.host⟩ 0x10000 7) :=
    .write 7 (.call (c := .allocate 0x4000 0 3) (.start (fresh_new _) Host.fresh) trivial
      (by unfold Call.InRange Call.Plain; decide) id) ⟨⟨3, 1, true⟩, by decide, by decide⟩
  have hcarried : Carried (write ⟨onePage.space, onePage.host⟩ 0x10000 7) := by
    refine ⟨fun r hr k _ _ => ?_, fun r hr _ _ k _ _ => ?_⟩ <;>
      (change r ∈ onePage.space.committed at hr
       rw [hlist, List.mem_singleton] at hr
       subst hr)
    · exact ⟨by decide, by decide⟩
    · decide
  refine ⟨(chain_faithful_iff hborn succeeds_onePage ?_ twin_megabytes
    twin_megabytes_back).mpr hcarried, hcarried⟩
  exact List.pairwise_singleton _ _

end GuestAddressSpace

end Fathom
