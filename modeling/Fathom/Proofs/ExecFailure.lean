import Fathom.Proofs.Arenas
import Fathom.Proofs.Edits
import Fathom.Proofs.Image
import Fathom.Proofs.Script

/-!
# What a failed exec leaves behind

`ExecProcess` ends the other threads of its process before it knows whether there is a
program to run. What it has loaded so far is in the record for good: each step numbers
what it commits anew, so a record with such a number is not the one from before.
-/

namespace Fathom

open Lib Spanned GuestAddressSpace GuestThreadRecord

namespace GuestAddressSpace

variable {s s' : GuestAddressSpace} {E m : Nat}

/-! ## New numbers -/

def Marked (E : Nat) (l : List GuestRange) : Prop := ∃ r ∈ l, E ≤ (tag r).epoch.toNat

variable {l : List GuestRange}

theorem Marked.coalesce (h : Marked E l) : Marked E (coalesce l) := by
  obtain ⟨r, hr, hle⟩ := h
  obtain ⟨q, hq, htag⟩ := exists_tag_join hr
  exact ⟨q, hq, htag ▸ hle⟩

theorem Marked.sortByBegin (h : Marked E l) : Marked E (sortByBegin l) := by
  obtain ⟨r, hr, hle⟩ := h
  exact ⟨r, mem_sortByBegin.mpr hr, hle⟩

theorem Marked.reprotect (h : Marked E l) (b e sb se : UInt64) (p : Prot) :
    Marked E (reprotect l b e sb se p) := by
  obtain ⟨r, hr, hle⟩ := h
  refine Marked.coalesce (Marked.sortByBegin ?_)
  by_cases hmiss : stop r ≤ b ∨ e ≤ begin r
  · exact ⟨r, List.mem_flatMap.mpr ⟨r, hr, by rw [cut, if_pos hmiss, List.mem_singleton]⟩, hle⟩
  · refine ⟨protectedPart b e sb se p r, List.mem_flatMap.mpr ⟨r, hr, ?_⟩, hle⟩
    rw [cut, if_neg hmiss]
    simp

def Uncommitted (s s' : GuestAddressSpace) : Prop :=
  s'.committed = s.committed ∧ s'.nextEpoch = s.nextEpoch

def Recorded (s s' : GuestAddressSpace) : Prop :=
  ∃ a n p, s'.committed = (s.recordCommitted a n p).committed ∧ s'.nextEpoch = s.nextEpoch + 1

structure Later (E m : Nat) (s : GuestAddressSpace) : Prop where
  marked : Marked E s.committed
  next : E ≤ s.nextEpoch.toNat
  gone : s.nextEpoch.toNat ≤ m

theorem Later.mono {m' : Nat} (h : Later E m s) (hm : m ≤ m') : Later E m' s :=
  ⟨h.marked, h.next, h.gone.trans hm⟩

theorem Later.uncommitted (h : Later E m s) (hsame : Uncommitted s s') : Later E m s' :=
  ⟨hsame.1 ▸ h.marked, hsame.2 ▸ h.next, hsame.2 ▸ h.gone⟩

theorem Recorded.later (h : Recorded s s') (hnext : E ≤ s.nextEpoch.toNat)
    (hgone : s.nextEpoch.toNat ≤ m) (hm : m + 1 < 2 ^ 64) : Later E (m + 1) s' := by
  obtain ⟨a, n, p, hcommitted, hepoch⟩ := h
  have hplus : s'.nextEpoch.toNat = s.nextEpoch.toNat + 1 := by
    rw [hepoch]
    exact toNat_add_of_lt (by simpa using Nat.lt_of_le_of_lt (Nat.succ_le_succ hgone) hm)
  refine ⟨?_, by omega, by omega⟩
  rw [hcommitted, recordCommitted_committed]
  exact Marked.coalesce (Marked.sortByBegin ⟨s.newRange a n p, by simp, hnext⟩)

theorem Later.recorded (h : Later E m s) (hrec : Recorded s s') (hm : m + 1 < 2 ^ 64) :
    Later E (m + 1) s' :=
  hrec.later h.next h.gone hm

/-! ## What LoadProgram does, one step after the other -/

theorem commitTaken_records (s : GuestAddressSpace) (h : Host) (free : List Extent)
    (a n : UInt64) (p : Prot) :
    let out := s.commitTaken h free a n p
    (out.ret = 0 ∧ Uncommitted s out.space) ∨ Recorded s out.space := by
  simp only [commitTaken]
  split
  · refine .inr ⟨a, n, p, ?_⟩
    have hcommitted : (({ s with free }).recordCommitted a n p).committed =
        (s.recordCommitted a n p).committed := by
      rw [recordCommitted_committed, recordCommitted_committed]
      rfl
    have hnext : (({ s with free }).recordCommitted a n p).nextEpoch = s.nextEpoch + 1 := by
      change (({ s with free }).markCommitted a n).nextEpoch + 1 = _
      rw [(({ s with free } : GuestAddressSpace).markCommitted_fields a n).2.2.2]
    split
    · exact ⟨((notify_fields _ _ _).2.2.1).trans hcommitted,
        ((notify_fields _ _ _).2.2.2).trans hnext⟩
    · exact ⟨hcommitted, hnext⟩
  · exact .inl ⟨rfl, rfl, rfl⟩

theorem allocate_records (s : GuestAddressSpace) (h : Host) (size hint : UInt64) (p : Prot) :
    let out := s.allocate h size hint p
    (out.ret = 0 ∧ Uncommitted s out.space) ∨ Recorded s out.space := by
  simp only [allocate]
  split
  · exact .inl ⟨rfl, rfl, rfl⟩
  · split
    · exact commitTaken_records s h _ _ _ p
    · split
      · exact commitTaken_records s h _ _ _ p
      · exact .inl ⟨rfl, rfl, rfl⟩

theorem allocate_later (h : Later E m s) (hm : m + 1 < 2 ^ 64) (host : Host)
    (size hint : UInt64) (p : Prot) : Later E (m + 1) (s.allocate host size hint p).space := by
  rcases s.allocate_records host size hint p with ⟨_, hsame⟩ | hrec
  · exact (h.uncommitted hsame).mono (Nat.le_succ m)
  · exact h.recorded hrec hm

theorem protect_later (h : Later E m s) (host : Host) (a n : UInt64) (p : Prot) :
    Later E m (s.protect host a n p).space := by
  have hlocked : Later E m (s.protectLocked host a n p).space := by
    have hre : Later E m { s with
        committed := reprotect s.committed (s.alignDown a) (s.alignUp (a + n)) (s.alignUp a)
          (s.alignDown (a + n)) p } :=
      ⟨h.marked.reprotect _ _ _ _ _, h.next, h.gone⟩
    rw [protectLocked]
    split
    · split
      · exact hre
      · exact hre
    · exact h
  rw [protect]
  split
  · exact hlocked.uncommitted ⟨(notify_fields _ _ _).2.2.1, (notify_fields _ _ _).2.2.2⟩
  · exact hlocked

theorem protectSegments_later (loadBase : UInt64) (segments : List Phdr) :
    ∀ {s : GuestAddressSpace} (host : Host), Later E m s →
    Later E m (protectSegments loadBase segments s host).2 := by
  induction segments with
  | nil => exact fun _ h => h
  | cons g _ ih =>
    intro s host h
    cases hload : g.loads with
    | false =>
      rw [protectSegments_skip hload]
      exact ih host h
    | true =>
      rw [protectSegments_turn hload]
      exact ih _ (protect_later h host _ _ _)

theorem adoptExternalMapping_records (s : GuestAddressSpace) {a n : UInt64} (hn : n ≠ 0)
    (p : Prot) : Recorded s (s.adoptExternalMapping a n p).2 := by
  rw [adoptExternalMapping, if_neg hn]
  refine ⟨a, n, p, rfl, ?_⟩
  change (s.markCommitted a n).nextEpoch + 1 = _
  rw [(s.markCommitted_fields a n).2.2.2]

theorem placeImage_later (h : Later E m s) (hm : m + 1 < 2 ^ 64) (host : Host) (file : ElfFile)
    (hint : UInt64) : Later E (m + 1) (s.placeImage host file hint 0).space := by
  rw [placeImage]
  cases file.eType with
  | dyn =>
    simp only
    have hallocate := allocate_later h hm host
      (file.imageEnd s.pageSize - file.imageBegin s.pageSize) hint
      (kGuestProtRead ||| kGuestProtWrite)
    split
    · exact hallocate
    · exact hallocate
  | exec =>
    have hquiet := h.mono (Nat.le_succ m)
    simp only [ne_eq, not_true_eq_false, if_false]
    split
    · by_cases hzero : file.imageEnd s.pageSize - file.imageBegin s.pageSize = 0
      · rw [adoptExternalMapping, if_pos hzero]
        exact hquiet
      · exact h.recorded (s.adoptExternalMapping_records hzero _) hm
    · exact hquiet

variable {file : ElfFile}

theorem loadElf_placed {host : Host} {hint guestBase : UInt64}
    (hlow : file.lowest ≠ 0xFFFFFFFFFFFFFFFF)
    (h : Later E m (s.placeImage host file hint guestBase).space) :
    Later E m (s.loadElf host file hint guestBase).space := by
  simp only [loadElf, if_neg hlow]
  split
  · exact h
  · split
    · exact protectSegments_later _ _ _ h
    · exact h

theorem loadElf_later (h : Later E m s) (hm : m + 1 < 2 ^ 64) (host : Host) (file : ElfFile)
    (hint : UInt64) : Later E (m + 1) (s.loadElf host file hint 0).space := by
  by_cases hlow : file.lowest = 0xFFFFFFFFFFFFFFFF
  · rw [loadElf, if_pos hlow]
    exact h.mono (Nat.le_succ m)
  · exact loadElf_placed hlow (placeImage_later h hm host file hint)

theorem andThen_later {ε ε' α β : Type} {out : Out (Except ε α)} {m' : Nat} (wrap : ε → ε')
    {next : α → GuestAddressSpace → Host → Out (Except ε' β)} (hout : Later E m out.space)
    (hm : m ≤ m') (hnext : ∀ value host, Later E m' (next value out.space host).space) :
    Later E m' (out.andThen wrap next).space := by
  rw [Out.andThen]
  split
  · exact hout.mono hm
  · exact hnext _ _

section

variable (h : Later E m s) (hm : m + 1 < 2 ^ 64) (host : Host)
include h hm

theorem loadInterpreter_later (files : ProgramFiles) (inspection : ElfInspection)
    (image : LoadedImage) :
    Later E (m + 1) (s.loadInterpreter host 0 files inspection image).space := by
  have hquiet := h.mono (Nat.le_succ m)
  rw [loadInterpreter]
  split
  · exact hquiet
  · split
    · exact hquiet
    · split
      · exact hquiet
      · exact hquiet
      next file _ =>
        have helf := loadElf_later h hm host file (image.imageEnd + 0)
        exact andThen_later _ helf le_rfl fun _ _ => helf

theorem buildInitialStack_later (is32bit : Bool) (image : LoadedImage) (start : StartArguments)
    (base stackSize : UInt64) :
    Later E (m + 1) (s.buildInitialStack host 0 is32bit image start base stackSize).space := by
  have hstack := fun hint => allocate_later h hm host (stackSize + s.pageSize) hint
    (kGuestProtRead ||| kGuestProtWrite)
  simp only [buildInitialStack, ne_eq, not_true_eq_false, if_false]
  split
  · exact hstack _
  · exact protect_later (hstack _) _ _ _ _

theorem reserveHeap_later (imagesEnd : UInt64) :
    Later E (m + 1) (s.reserveHeap host 0 imagesEnd).space := by
  have hheap := allocate_later h hm host kHeapReservation (imagesEnd + 0)
    (kGuestProtRead ||| kGuestProtWrite)
  rw [reserveHeap]
  split
  · exact hheap
  · exact hheap

end

/-! ## LoadProgram -/

def SameRecord (s s' : GuestAddressSpace) : Prop :=
  s'.committed = s.committed ∧ s'.layout.free = s.layout.free

theorem SameRecord.refl (s : GuestAddressSpace) : SameRecord s s := ⟨rfl, rfl⟩

/-- Memory is taken for the program's image. Nothing that fails later gives it back. -/
def LoadStays (s : GuestAddressSpace) (h : Host) (r : ProgramRequest) : Prop :=
  ∃ file loadBase, r.files.program = .ok file ∧ (s.placeImage h file 0 0).ret = .ok loadBase

theorem placeImage_dyn_space (htype : file.eType = .dyn) (h : Host) (hint guestBase : UInt64) :
    (s.placeImage h file hint guestBase).space =
      (s.allocate h (file.span s.pageSize) hint (kGuestProtRead ||| kGuestProtWrite)).space := by
  simp only [placeImage, htype]
  split
  · rfl
  · rfl

theorem allocate_refused (hs : s.ListInv) (h : Host) {size : UInt64} (p : Prot)
    (hdvd : s.page ∣ size.toNat) (hret : (s.allocate h size 0 p).ret = 0) :
    SameRecord s (s.allocate h size 0 p).space := by
  rcases Nat.eq_zero_or_pos size.toNat with hzero | hpos
  · have hnone : size = 0 := UInt64.toNat_inj.mp hzero
    rw [hnone]
    exact .refl s
  · have hfit := allocFits_unhinted hpos (add_le_of_dvd_of_lt hdvd s.page_dvd_word size.toNat_lt)
    rcases hs.allocate_cases h p hfit with ⟨_, heq⟩ | ⟨a, n, _, ht, heq, _⟩
    · rw [heq]
      exact .refl s
    · rw [heq] at hret ⊢
      have ha : a ≠ 0 := by
        rintro rfl
        exact absurd (ht.mem_arena hs).1 (Nat.not_le_of_lt s.base_pos)
      simp only [commitTaken] at hret ⊢
      split at hret
      · exact absurd hret ha
      next hrefused =>
        rw [if_neg hrefused]
        exact ⟨rfl, congrArg Layout.free (hs.takenReturned ht).2⟩

theorem placeImage_first (hs : s.ListInv) (h : Host) (file : ElfFile) :
    let out := s.placeImage h file 0 0
    (∃ error, out.ret = .error error ∧ SameRecord s out.space) ∨
      ∃ loadBase, out.ret = .ok loadBase ∧ Recorded s out.space := by
  intro out
  cases htype : file.eType with
  | dyn =>
    have hspace := placeImage_dyn_space (s := s) htype h 0 0
    rcases (placeImage_dyn htype h 0 0).2 with ⟨hzero, herr⟩ | ⟨hret, hok⟩
    · refine .inl ⟨_, herr, ?_⟩
      rw [hspace]
      exact allocate_refused hs h _ (s.dvd_span file) hzero
    · refine .inr ⟨_, hok, ?_⟩
      rw [hspace]
      exact (s.allocate_records h _ 0 _).resolve_left fun hrefused => hret hrefused.1
  | exec =>
    have hbase : out = s.placeImage h file 0 0 := rfl
    simp only [placeImage, htype, ne_eq, not_true_eq_false, if_false] at hbase
    rw [hbase]
    split
    next hmapped =>
      have hspan := Host.ne_zero_of_mapReadWrite hmapped
      exact .inr ⟨0, rfl, s.adoptExternalMapping_records hspan _⟩
    · exact .inl ⟨_, rfl, .refl s⟩

theorem Tallied.not_marked {k : Nat} (hs : s.ListInv) (htally : s.Tallied k) :
    ¬ Marked (k + 1) s.committed := by
  rintro ⟨r, hr, hle⟩
  have hproper := hs.committed.proper r hr
  have hheld : s.HeldSince (lo r) (tag r).epoch :=
    ⟨tag r, ⟨r, hr, ⟨le_rfl, hproper.nonempty⟩, rfl⟩, rfl⟩
  have hissued := htally.issued _ _ hheld
  omega

variable {inspection : ElfInspection}

theorem lowest_of_inspectElf (hinspect : inspectElf file = .ok inspection) :
    file.lowest ≠ 0xFFFFFFFFFFFFFFFF := by
  intro hlow
  simp only [inspectElf, if_pos hlow] at hinspect
  cases hinspect

theorem loadProgram_later {h : Host} {r : ProgramRequest} (hfile : r.files.program = .ok file)
    (hinspect : inspectElf file = .ok inspection) (hm : m + 3 < 2 ^ 64)
    (hplaced : Later E m (s.placeImage h file 0 0).space) :
    Later E (m + 3) (s.loadProgram h 0 r).space := by
  have helf := loadElf_placed (lowest_of_inspectElf hinspect) hplaced
  simp only [loadProgram, hfile, hinspect]
  refine andThen_later _ helf (by omega) fun image host => ?_
  have hinterpreter := loadInterpreter_later helf (by omega) host r.files inspection
    (image.toGuestAddresses 0)
  refine andThen_later _ hinterpreter (by omega) fun interpreter host => ?_
  have hstack := buildInitialStack_later hinterpreter (by omega) host inspection.is32bit
    (image.toGuestAddresses 0) r.start
    (if inspection.kind == .dynamic then interpreter.loadBase else 0) r.stackSize
  refine andThen_later _ hstack (by omega) fun stack host => ?_
  have hheap := reserveHeap_later hstack (by omega) host
    (wordMax (image.toGuestAddresses 0).imageEnd interpreter.imageEnd)
  exact andThen_later _ hheap le_rfl fun _ _ => hheap

theorem loadProgram_same_iff {k : Nat} (hs : s.ListInv) (htally : s.Tallied k) (hk : k + 5 < 2 ^ 64)
    (h : Host) {r : ProgramRequest} (hfile : r.files.program = .ok file)
    (hinspect : inspectElf file = .ok inspection) :
    SameRecord s (s.loadProgram h 0 r).space ↔ ¬ s.LoadStays h r := by
  rcases placeImage_first hs h file with ⟨_, herr, hsame⟩ | ⟨loadBase, hok, hrec⟩
  · refine iff_of_true ?_ ?_
    · simpa only [loadProgram, hfile, hinspect, Out.andThen, loadElf,
        if_neg (lowest_of_inspectElf hinspect), herr] using hsame
    · rintro ⟨_, _, hfile', hok⟩
      rw [hfile] at hfile'
      cases hfile'
      rw [herr] at hok
      cases hok
  · have hnext : s.nextEpoch.toNat = k + 1 := by
      rw [htally.next, UInt64.toNat_ofNat']
      omega
    have hplaced := hrec.later (Nat.le_of_eq hnext.symm) (Nat.le_of_eq hnext) (by omega)
    have hloaded := loadProgram_later hfile hinspect (by omega) hplaced
    refine iff_of_false ?_ (not_not_intro ⟨file, loadBase, hfile, hok⟩)
    intro hsame
    exact htally.not_marked hs (hsame.1 ▸ hloaded.marked)

end GuestAddressSpace

namespace FathomSession

variable {s s' : FathomSession} {pid : Nat}

/-! ## ExecProcess -/

def MakesArena (c : Settings) (a : ExecAnswers) (e : ExecProgram) : Prop :=
  ∃ inspection, e.inspection = some inspection ∧
  (inspection.is32bit || c.relocate64) = true ∧ a.reserved.isSome = true ∧ a.arenaContext = true

def LoadsHere (s : FathomSession) (c : Settings) (a : ExecAnswers) (e : ExecProgram) : Prop :=
  ∃ inspection, e.inspection = some inspection ∧ (inspection.is32bit || c.relocate64) = false ∧
  (s.engineIn .session inspection.is32bit a.sessionContext).1 = true

section

variable (s)

theorem find_setSpace (ptr : SpacePtr) (space : GuestAddressSpace) (host : Host) (q : Nat) :
    (s.setSpace ptr space host).find q = s.find q := by
  cases ptr with
  | null => rfl
  | session => rfl
  | own id => rfl

theorem find_newArena (is32bit : Bool) (reserved : Option Geometry) (context : Bool) (q : Nat) :
    (s.newArena is32bit reserved context).2.find q = s.find q := by
  obtain ⟨-, heq⟩ | ⟨-, -, -, htable, -⟩ := newArena_cases s is32bit reserved context
  · rw [heq]
  · rw [find, htable]
    rfl

theorem execInto_cases (c : Settings) (a : ExecAnswers) (pid : Nat) (e : ExecProgram)
    (is32bit : Bool) (ptr : SpacePtr) (base : UInt64) :
    ∃ s₂, Adds s [] s₂ ∧ (∀ q, s₂.find q = s.find q) ∧
    (ptr = .session → s₂.arenas32 = s.arenas32 ∧ s₂.space =
      if (s.engineIn ptr is32bit a.sessionContext).1
      then (s.space.loadProgram s.host base (e.request c a)).space else s.space) ∧
    ((∃ err, s.execInto c a pid e is32bit ptr base = (some err, s₂)) ∨
      ∃ loaded, s.execInto c a pid e is32bit ptr base =
        (none, s₂.modify pid (·.adopt is32bit base ptr e.path loaded))) := by
  have hengine := engineIn_leaves s ptr is32bit a.sessionContext
  obtain ⟨e₃₂, e₆₄, heq⟩ := engineIn_eq s ptr is32bit a.sessionContext
  rw [execInto]
  generalize s.engineIn ptr is32bit a.sessionContext = engine at hengine heq ⊢
  obtain ⟨ok, _⟩ := engine
  subst heq
  simp only at hengine ⊢
  cases ok with
  | false => exact ⟨_, hengine.adds, hengine.find, fun _ => ⟨rfl, rfl⟩, .inl ⟨-8, rfl⟩⟩
  | true =>
    generalize hs₁ : ({ s with engine32 := e₃₂, engine64 := e₆₄ }) = s₁ at hengine ⊢
    cases hspace : s₁.spaceAt ptr with
    | none =>
      refine ⟨s₁, hengine.adds, hengine.find, ?_, .inl ⟨-8, rfl⟩⟩
      rintro rfl
      cases hspace
    | some space =>
      simp only
      refine ⟨s₁.setSpace ptr (space.loadProgram s.host base (e.request c a)).space
        (space.loadProgram s.host base (e.request c a)).host,
        hengine.adds.trans (setSpace_adds s₁ ptr _ _),
        fun q => (find_setSpace _ _ _ _ q).trans (hengine.find q), ?_, ?_⟩
      · rintro rfl
        cases hspace
        subst hs₁
        exact ⟨rfl, rfl⟩
      · cases (space.loadProgram s.host base (e.request c a)).ret with
        | error _ => exact .inl ⟨-8, rfl⟩
        | ok loaded => exact .inr ⟨loaded, rfl⟩

end

structure ExecReaches (s : FathomSession) (c : Settings) (a : ExecAnswers) (pid : Nat)
    (e : ExecProgram) (p : ProcessRecord) (ptr : SpacePtr) (s₂ : FathomSession) : Prop where
  find : s₂.find pid = some { p with threads := [] }
  arenas : (MakesArena c a e ∧ ptr = .own s.arenas32.next ∧ Adds s [s.arenas32.next] s₂) ∨
    (¬ MakesArena c a e ∧ ptr = .session ∧ Adds s [] s₂ ∧ s₂.arenas32 = s.arenas32 ∧
      ((s.LoadsHere c a e ∧ s₂.space = (s.space.loadProgram s.host 0 (e.request c a)).space) ∨
        (¬ s.LoadsHere c a e ∧ s₂.space = s.space)))

theorem ExecReaches.adds {c : Settings} {a : ExecAnswers} {e : ExecProgram} {p : ProcessRecord}
    {ptr : SpacePtr} {s₂ : FathomSession} (h : s.ExecReaches c a pid e p ptr s₂) :
    ∃ more, Adds s more s₂ := by
  rcases h.arenas with ⟨-, -, hadds⟩ | ⟨-, -, hadds, -⟩
  · exact ⟨_, hadds⟩
  · exact ⟨_, hadds⟩

theorem stopAndJoinThreadsOf_adds (s : FathomSession) (pid : Nat) :
    Adds s [] (s.stopAndJoinThreadsOf pid) :=
  .of_spaces ⟨rfl, rfl⟩ (names_of_find (find_modify s pid · _) fun _ => rfl)

theorem execProgram_cases {p : ProcessRecord} (hfind : s.find pid = some p) (c : Settings)
    (a : ExecAnswers) (e : ExecProgram) : ∃ ptr s₂, s.ExecReaches c a pid e p ptr s₂ ∧
    ((∃ err, s.execProgram c a pid e = (some err, s₂)) ∨
      ∃ is32bit base loaded, s.execProgram c a pid e =
        (none, s₂.modify pid (·.adopt is32bit base ptr e.path loaded))) := by
  have hstop := stopAndJoinThreadsOf_adds s pid
  have hfind₀ : (s.stopAndJoinThreadsOf pid).find pid = some { p with threads := [] } := by
    rw [stopAndJoinThreadsOf, find_modify, if_pos rfl, hfind]
    rfl
  cases hinspect : e.inspection with
  | none =>
    have hnone : ∀ i, e.inspection ≠ some i := by simp [hinspect]
    refine ⟨.session, s.stopAndJoinThreadsOf pid, ⟨hfind₀, .inr ?_⟩, .inl ⟨-8, ?_⟩⟩
    · exact ⟨fun ⟨i, hi, _⟩ => hnone i hi, rfl, hstop, rfl,
        .inr ⟨fun ⟨i, hi, _⟩ => hnone i hi, rfl⟩⟩
    · simp only [execProgram, hinspect]
  | some i =>
    have hmakes : MakesArena c a e ↔ (i.is32bit || c.relocate64) = true ∧
        a.reserved.isSome = true ∧ a.arenaContext = true := by
      simp [MakesArena, hinspect, Option.some.injEq]
    have hloads : s.LoadsHere c a e ↔ (i.is32bit || c.relocate64) = false ∧
        (s.engineIn .session i.is32bit a.sessionContext).1 = true := by
      simp [LoadsHere, hinspect, Option.some.injEq]
    cases hown : i.is32bit || c.relocate64 with
    | true =>
      rw [hown] at hmakes hloads
      by_cases hmade : a.reserved.isSome = true ∧ a.arenaContext = true
      · obtain ⟨hptr, hnew⟩ := newArena_adds (s.stopAndJoinThreadsOf pid) i.is32bit hmade
        have hfind₁ := (find_newArena (s.stopAndJoinThreadsOf pid) i.is32bit a.reserved
          a.arenaContext pid).trans hfind₀
        obtain ⟨s₂, hadds, hsame, -, hout⟩ := execInto_cases
          ((s.stopAndJoinThreadsOf pid).newArena i.is32bit a.reserved a.arenaContext).2 c a pid
          e i.is32bit (.own (s.stopAndJoinThreadsOf pid).arenas32.next)
          (baseOf ((s.stopAndJoinThreadsOf pid).newArena i.is32bit a.reserved
            a.arenaContext).2 (.own (s.stopAndJoinThreadsOf pid).arenas32.next))
        refine ⟨.own s.arenas32.next, s₂, ⟨?_, .inl ?_⟩, ?_⟩
        · exact (hsame pid).trans hfind₁
        · exact ⟨hmakes.mpr ⟨rfl, hmade⟩, rfl, (hstop.trans hnew).trans hadds⟩
        · simp only [execProgram, hinspect, hown, hptr, reduceCtorEq]
          rcases hout with hfail | ⟨loaded, hok⟩
          · exact .inl hfail
          · exact .inr ⟨_, _, loaded, hok⟩
      · obtain ⟨-, hnone⟩ | ⟨hyes, -⟩ :=
          newArena_cases (s.stopAndJoinThreadsOf pid) i.is32bit a.reserved a.arenaContext
        · refine ⟨.session, s.stopAndJoinThreadsOf pid, ⟨hfind₀, .inr ?_⟩, .inl ⟨-12, ?_⟩⟩
          · exact ⟨fun h => hmade (hmakes.mp h).2, rfl, hstop, rfl,
              .inr ⟨fun h => absurd (hloads.mp h).1 (by simp), rfl⟩⟩
          · simp [execProgram, hinspect, hown, hnone]
        · exact absurd hyes hmade
    | false =>
      rw [hown] at hmakes hloads
      obtain ⟨s₂, hadds, hsame, hhere, hout⟩ := execInto_cases
        (s.stopAndJoinThreadsOf pid) c a pid e i.is32bit .session 0
      obtain ⟨harenas, hspace⟩ := hhere rfl
      rw [engineIn_fst s (s.stopAndJoinThreadsOf pid) rfl rfl rfl] at hspace
      refine ⟨.session, s₂, ⟨(hsame pid).trans hfind₀, .inr ?_⟩, ?_⟩
      · refine ⟨fun h => absurd (hmakes.mp h).1 (by simp), rfl, hstop.trans hadds, harenas, ?_⟩
        cases hcontext : (s.engineIn .session i.is32bit a.sessionContext).1 with
        | true =>
          rw [hcontext] at hspace
          exact .inl ⟨hloads.mpr ⟨rfl, hcontext⟩, hspace⟩
        | false =>
          rw [hcontext] at hspace
          exact .inr ⟨fun h => absurd (hcontext.symm.trans (hloads.mp h).2) (by simp), hspace⟩
      · simp only [execProgram, hinspect, hown, Bool.false_eq_true]
        rcases hout with hfail | ⟨loaded, hok⟩
        · exact .inl hfail
        · exact .inr ⟨_, _, loaded, hok⟩

/-! ## An exec that fails -/

/-- The process can go on as before: it is what it was and has the threads it
had, its arena has the ranges and the free bytes it had, and there are no more
arenas. -/
structure ExecUndone (s : FathomSession) (pid : Nat) (s' : FathomSession) : Prop where
  ids : s'.arenaIds = s.arenaIds
  process : ∀ p, s.find pid = some p → ∃ p', s'.find pid = some p' ∧
    p' = { p with threads := p'.threads } ∧
    p'.threads.filter runs = p.threads.filter runs ∧
    Option.Rel SameRecord (s.spaceAt p.space) (s'.spaceAt p.space)

def ProgramLeaves (s : FathomSession) (c : Settings) (a : ExecAnswers) (p : ProcessRecord)
    (e : ExecProgram) : Prop :=
  p.threads.any runs = true ∨ MakesArena c a e ∨
  (s.LoadsHere c a e ∧ p.space = .session ∧ s.space.LoadStays s.host (e.request c a))

def ExecLeaves (s : FathomSession) (c : Settings) (a : ExecAnswers) (k : HostContents)
    (hops pid : Nat) (r : ExecRequest) (envp : List (List Char)) : Prop :=
  ∃ p hostPath path argv, s.find pid = some p ∧
  execResolve k c.guestRoot ⟨pid, p.path⟩ hops r = some (.program hostPath path argv) ∧
  s.ProgramLeaves c a p ⟨k.programFiles c.guestRoot hostPath, hostPath, path, argv, envp⟩

theorem rel_sameRecord_refl (o : Option GuestAddressSpace) :
    Option.Rel SameRecord o o := by
  cases o with
  | none => exact .none
  | some space => exact .some (.refl space)

theorem execUndone_refl (s : FathomSession) (pid : Nat) : ExecUndone s pid s :=
  ⟨rfl, fun p hp => ⟨p, hp, rfl, rfl, rel_sameRecord_refl _⟩⟩

theorem file_of_inspection {e : ExecProgram} {inspection : ElfInspection}
    (h : e.inspection = some inspection) :
    ∃ file, e.files.program = .ok file ∧ inspectElf file = .ok inspection := by
  rw [ExecProgram.inspection] at h
  split at h
  · cases h
  next file hfile =>
    refine ⟨file, hfile, ?_⟩
    cases hinspect : inspectElf file with
    | error _ =>
      rw [hinspect] at h
      cases h
    | ok _ =>
      rw [hinspect] at h
      cases h
      rfl

theorem sameRecord_at_iff (harenas : s'.arenas32 = s.arenas32) (ptr : SpacePtr) :
    Option.Rel SameRecord (s.spaceAt ptr) (s'.spaceAt ptr) ↔
    (ptr = .session → SameRecord s.space s'.space) := by
  cases ptr with
  | null => exact iff_of_true .none (by simp)
  | session => simp [spaceAt]
  | own id =>
    simp only [spaceAt, harenas, reduceCtorEq, false_implies, iff_true]
    exact rel_sameRecord_refl _

theorem execProgram_undone_iff {c : Settings} {a : ExecAnswers} {e : ExecProgram} {n : Nat}
    {err : Int} {p : ProcessRecord} (hs : s.space.ListInv) (htally : s.space.Tallied n)
    (hn : n + 5 < 2 ^ 64) (hfind : s.find pid = some p)
    (hout : s.execProgram c a pid e = (some err, s')) :
    ExecUndone s pid s' ↔ ¬ s.ProgramLeaves c a p e := by
  obtain ⟨_, s₂, hreached, hend⟩ := execProgram_cases hfind c a e
  have hs₂ : s₂ = s' := by
    rcases hend with ⟨_, heq⟩ | ⟨_, _, _, heq⟩
    · rw [heq] at hout
      cases hout
      rfl
    · rw [heq] at hout
      cases hout
  subst hs₂
  have hp₂ := hreached.find
  have hundone : ExecUndone s pid s₂ ↔ s₂.arenaIds = s.arenaIds ∧
      ¬ p.threads.any runs = true ∧
      Option.Rel SameRecord (s.spaceAt p.space) (s₂.spaceAt p.space) := by
    constructor
    · intro h
      obtain ⟨q, hq, -, hruns, hrel⟩ := h.process p hfind
      rw [hp₂] at hq
      cases hq
      refine ⟨h.ids, fun hany => ?_, hrel⟩
      obtain ⟨t, ht, hrun⟩ := List.any_eq_true.mp hany
      have hmem : t ∈ p.threads.filter runs := List.mem_filter.mpr ⟨ht, hrun⟩
      rw [← hruns] at hmem
      exact absurd hmem List.not_mem_nil
    · rintro ⟨hids, hnone, hrel⟩
      refine ⟨hids, fun q hq => ?_⟩
      rw [hfind] at hq
      cases hq
      refine ⟨_, hp₂, rfl, ?_, hrel⟩
      refine (List.filter_eq_nil_iff.mpr fun t ht hrun => hnone ?_).symm
      exact List.any_eq_true.mpr ⟨t, ht, hrun⟩
  rw [hundone, ProgramLeaves]
  rcases hreached.arenas with ⟨hmakes, -, hadds⟩ | ⟨hnot, -, -, harenas, hspace⟩
  · exact iff_of_false (fun h => hadds.ids_ne h.1) (not_not_intro (.inr (.inl hmakes)))
  · have hids : s₂.arenaIds = s.arenaIds :=
      congrArg (fun t : Arenas => t.arenas.map Arena32.id) harenas
    rcases hspace with ⟨hloads, hspace⟩ | ⟨hquiet, hspace⟩
    · obtain ⟨_, hinspection, -, -⟩ := id hloads
      obtain ⟨_, hfile, hinspect⟩ := file_of_inspection hinspection
      have hload := loadProgram_same_iff (r := e.request c a) hs htally hn s.host
        hfile hinspect
      rw [sameRecord_at_iff harenas, hspace, hload]
      simp [hids, hnot, hloads, not_or]
    · rw [sameRecord_at_iff harenas, hspace]
      simp [hids, hnot, hquiet, SameRecord.refl, implies_true]

/-- An exec that answers an error has left everything as it was exactly when the
process had no other thread and nothing had been placed in its arena or in one
of its own. -/
theorem execProcess_undone_iff (s : FathomSession) (c : Settings) (a : ExecAnswers)
    (k : HostContents) (hops pid : Nat) (r : ExecRequest) (envp : List (List Char)) {n : Nat}
    {err : Int} {s' : FathomSession} (hs : s.space.ListInv) (htally : s.space.Tallied n)
    (hn : n + 5 < 2 ^ 64) (hout : s.execProcess c a k hops pid r envp = some (some err, s')) :
    ExecUndone s pid s' ↔ ¬ s.ExecLeaves c a k hops pid r envp := by
  rw [execProcess] at hout
  cases hfind : s.find pid with
  | none =>
    rw [hfind] at hout
    cases hout
    refine iff_of_true (execUndone_refl s pid) ?_
    rintro ⟨p, -, -, -, hp, -⟩
    rw [hfind] at hp
    cases hp
  | some p =>
    simp only [hfind] at hout
    cases hresolve : execResolve k c.guestRoot ⟨pid, p.path⟩ hops r with
    | none =>
      rw [hresolve] at hout
      cases hout
    | some found =>
      cases found with
      | missing =>
        rw [hresolve] at hout
        cases hout
        refine iff_of_true (execUndone_refl s pid) ?_
        rintro ⟨q, hostPath, _, _, hq, hfound, -⟩
        rw [hfind] at hq
        cases hq
        rw [hresolve] at hfound
        cases hfound
      | program hostPath path argv =>
        simp only [hresolve, Option.some.injEq] at hout
        rw [execProgram_undone_iff hs htally hn hfind hout]
        refine not_congr ⟨fun h => ⟨p, hostPath, path, argv, hfind, hresolve, h⟩, ?_⟩
        rintro ⟨q, hostPath', _, _, hq, hfound, h⟩
        rw [hfind] at hq
        cases hq
        rw [hresolve] at hfound
        cases hfound
        exact h

def oneFile (bytes : List Char) : HostContents := { selfNamed with contents := fun _ => some bytes }

def rootedSettings : Settings := { defaultSettings with guestRoot := ['/', 'g'] }

def allGranted : ExecAnswers where
  reserved := some .nextMegabyte
  arenaContext := true
  sessionContext := true
  random := []

theorem failed_exec_ends_threads :
    let s := startedSession (started false .session [⟨2, true, false⟩])
    let s' := s.stopAndJoinThreadsOf 1
    s.execProcess rootedSettings allGranted (oneFile ['x']) 0 1 ⟨['/', 's'], []⟩ [] =
        some (some (-8), s') ∧ (s.find 1).map ProcessRecord.threads = some [⟨2, true, false⟩] ∧
      (s'.find 1).map ProcessRecord.threads = some [] ∧ ¬ ExecUndone s 1 s' := by
  refine ⟨by rfl, by rfl, by rfl, fun h => ?_⟩
  obtain ⟨p', hp', -, hruns, -⟩ := h.process _ rfl
  cases hp'
  exact absurd hruns (by decide)

theorem execProcess_undone_iff_one_thread :
    let s := startedSession (started false .session [])
    s.execProcess rootedSettings allGranted (oneFile ['x']) 0 1 ⟨['/', 's'], []⟩ [] =
        some (some (-8), s.stopAndJoinThreadsOf 1) ∧ ExecUndone s 1 (s.stopAndJoinThreadsOf 1) := by
  intro s
  have hout : s.execProcess rootedSettings allGranted (oneFile ['x']) 0 1 ⟨['/', 's'], []⟩ [] =
      some (some (-8), s.stopAndJoinThreadsOf 1) := by rfl
  refine ⟨hout, (execProcess_undone_iff s rootedSettings allGranted (oneFile ['x']) 0 1
    ⟨['/', 's'], []⟩ [] (listInv_new _) (tallied_new _)
    (by decide) hout).mpr ?_⟩
  rintro ⟨p, hostPath, _, _, hp, hresolve, hleft⟩
  cases hp
  have hfound : execResolve (oneFile ['x']) ['/', 'g'] ⟨1, []⟩ 0 ⟨['/', 's'], []⟩ =
      some (.program ['/', 'g', '/', 's'] ['/', 's'] [['/', 's']]) := by decide
  cases hfound.symm.trans hresolve
  rcases hleft with hruns | ⟨_, hsome, _⟩ | ⟨⟨_, hsome, _⟩, _⟩
  · exact absurd hruns (by decide)
  · cases hsome
  · cases hsome

end FathomSession

end Fathom
