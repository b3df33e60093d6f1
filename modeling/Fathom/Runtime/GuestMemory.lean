import Fathom.Lib.Span
import Fathom.Runtime.Host

/-!
# The guest's address space (`guest_memory.cpp`)

One arena of host memory, reserved once and handed out in host pages.
-/

namespace Fathom

open Lib Spanned

structure GuestRange where
  begin : UInt64
  size : UInt64
  protection : Prot
  epoch : UInt64
  written : Bool
  deriving DecidableEq, Inhabited

structure Extent where
  begin : UInt64
  size : UInt64
  deriving DecidableEq, Inhabited

structure Attr where
  protection : Prot
  epoch : UInt64
  written : Bool
  deriving DecidableEq

instance : Spanned GuestRange Attr where
  begin r := r.begin
  size r := r.size
  tag r := ⟨r.protection, r.epoch, r.written⟩
  place r b n := { r with begin := b, size := n }
  begin_place _ _ _ := rfl
  size_place _ _ _ := rfl
  tag_place _ _ _ := rfl

instance : Spanned Extent Unit where
  begin e := e.begin
  size e := e.size
  tag _ := ()
  place _ b n := ⟨b, n⟩
  begin_place _ _ _ := rfl
  size_place _ _ _ := rfl
  tag_place _ _ _ := rfl

def kGuestPage : UInt64 := 0x1000

def kLowestUsable : UInt64 := 64 * 1024

/-- The numbers of an arena as `Reserve` leaves them: whole host pages of a
power-of-two size between the guest's 4KB and 64KB, at least one of them, not
at address zero. -/
structure Geometry where
  base : UInt64
  size : UInt64
  pageSize : UInt64
  page_pow : ∃ k, 12 ≤ k ∧ k ≤ 16 ∧ pageSize.toNat = 2 ^ k
  base_aligned : pageSize.toNat ∣ base.toNat
  size_aligned : pageSize.toNat ∣ size.toNat
  base_pos : 0 < base.toNat
  size_pos : 0 < size.toNat
  fits : base.toNat + size.toNat < 2 ^ 64

structure GuestAddressSpace extends Geometry where
  free : List Extent
  committed : List GuestRange
  nextEpoch : UInt64
  guestBase : UInt64
  floor : UInt64
  codeGrain : UInt64
  codeWordCount : UInt64
  codeWords : UInt64 → UInt64
  committedWords : UInt64 → UInt64
  releaseObserver : Bool
  observed : List (UInt64 × UInt64)

structure Out (α : Type) where
  ret : α
  host : Host
  space : GuestAddressSpace

namespace GuestAddressSpace

variable (s : GuestAddressSpace)

/-! ## Construction -/

/-- The constructor's loop over `code_grain_`. The grain doubles at most until
the arena is under `2 ^ 22` grains, well within the fuel. -/
def growGrain (size : UInt64) : Nat → UInt64 → UInt64
  | 0, grain => grain
  | fuel + 1, grain => if size / grain / 64 > 65536 then growGrain size fuel (grain * 2) else grain

def new (g : Geometry) : GuestAddressSpace :=
  let grain := growGrain g.size 64 (64 * 1024)
  { g with
    free :=
      if g.size > kLowestUsable
      then [⟨g.base + kLowestUsable, g.size - kLowestUsable⟩] else []
    committed := []
    nextEpoch := 1
    guestBase := 0
    floor := 0
    codeGrain := grain
    codeWordCount := g.size / grain / 64 + 1
    codeWords := fun _ => 0
    committedWords := fun _ => 0
    releaseObserver := false
    observed := [] }

def alignDown (value : UInt64) : UInt64 := maskDown s.pageSize value

def alignUp (value : UInt64) : UInt64 := maskUp s.pageSize value

/-! ## The coarse maps -/

/-- The bits `[first, first + count)` of a map of 64-bit words, one grain a
bit; the answer is whether any of them was set, or lies past the last word. -/
def walkCodeMap (wordCount : UInt64) (set : Bool) :
    Nat → UInt64 → (UInt64 → UInt64) → Bool × (UInt64 → UInt64)
  | 0, _, words => (false, words)
  | count + 1, index, words =>
    let word := index / 64
    if word ≥ wordCount then (true, words)
    else
      let bit := (1 : UInt64) <<< (index % 64)
      let words' := if set
        then (fun w => if w = word then words w ||| bit else words w) else words
      let rest := walkCodeMap wordCount set count (index + 1) words'
      (rest.1 || (words word &&& bit != 0), rest.2)

variable (begin stop : UInt64)

def grainsOf : UInt64 × Nat :=
  let first := (begin - s.base) / s.codeGrain
  let last := (stop - 1 - s.base) / s.codeGrain
  (first, last.toNat + 1 - first.toNat)

def outsideCodeMap : Bool :=
  stop ≤ begin || begin < s.base || stop > s.base + s.size

def noteExecutable : Bool × GuestAddressSpace :=
  if s.outsideCodeMap begin stop then (true, s)
  else
    let (first, count) := s.grainsOf begin stop
    let (had, words) := walkCodeMap s.codeWordCount true count first s.codeWords
    (had, { s with codeWords := words })

def hasHeldCode : Bool :=
  if s.outsideCodeMap begin stop then true
  else
    let (first, count) := s.grainsOf begin stop
    (walkCodeMap s.codeWordCount false count first s.codeWords).1

def maybeCommitted (address : UInt64) : Bool :=
  if address < s.base ∨ address ≥ s.base + s.size then true
  else
    let grain := (address - s.base) / s.codeGrain
    let word := grain / 64
    if word ≥ s.codeWordCount then true
    else s.committedWords word &&& (1 : UInt64) <<< (grain % 64) != 0

def notify : GuestAddressSpace :=
  if s.releaseObserver then { s with observed := s.observed ++ [(begin, stop)] }
  else s

end GuestAddressSpace

variable (free : List Extent) (committed : List GuestRange)

/-! ## The free list -/

/-- All or nothing: the extent that holds `[address, address + size)` loses it. -/
def takeFreeExtent : List Extent → UInt64 → UInt64 → Option (List Extent)
  | [], _, _ => none
  | extent :: rest, address, size =>
    let stop := address + size
    if address < extent.begin ∨ stop > Spanned.stop extent then
      (takeFreeExtent rest address size).map (extent :: ·)
    else
      let head := address - extent.begin
      let tail := Spanned.stop extent - stop
      if head = 0 ∧ tail = 0 then some rest
      else if head = 0 then some (⟨stop, tail⟩ :: rest)
      else if tail = 0 then some (⟨extent.begin, head⟩ :: rest)
      else some (⟨extent.begin, head⟩ :: ⟨stop, tail⟩ :: rest)

def takeFreeSpan (begin stop : UInt64) : List Extent := free.flatMap (cut begin stop fun _ => [])

def joinNext (freed : Extent) : List Extent → Extent × List Extent
  | next :: rest =>
    if Spanned.stop freed = next.begin
    then (⟨freed.begin, freed.size + next.size⟩, rest) else (freed, next :: rest)
  | [] => (freed, [])

/-- The list, with the freed extent joined to the neighbour below when they
touch. -/
def joinPrevious (before : List Extent) (freed : Extent) (after : List Extent) : List Extent :=
  match before.getLast? with
  | some last =>
    if Spanned.stop last = freed.begin
    then before.dropLast ++ ⟨last.begin, last.size + freed.size⟩ :: after
    else before ++ freed :: after
  | none => freed :: after

/-- The branch of `ReturnFreeExtent` for a range nothing of which is free:
insert it in place, then join it to the neighbour on each side. -/
def insertFree (address size : UInt64) : List Extent :=
  let next := joinNext ⟨address, size⟩ (free.dropWhile (·.begin < address))
  joinPrevious (free.takeWhile (·.begin < address)) next.1 next.2

def overlapsFree (address size : UInt64) : Bool :=
  free.any fun extent =>
    decide (extent.begin < address + size) && decide (address < Spanned.stop extent)

/-- The parts of `[address, end)` from `cursor` on that are not free yet, each
as a start and a length. -/
def freePieces (stop : UInt64) : UInt64 → List Extent → List (UInt64 × UInt64)
  | cursor, [] => if cursor < stop then [(cursor, stop - cursor)] else []
  | cursor, other :: rest =>
    if Spanned.stop other ≤ cursor ∨ other.begin ≥ stop
    then freePieces stop cursor rest
    else
      (if other.begin > cursor then [(cursor, other.begin - cursor)] else []) ++
        freePieces stop (wordMax cursor (Spanned.stop other)) rest

theorem freePieces_lt {address size : UInt64} : ∀ {free : List Extent} {cursor : UInt64},
      address.toNat ≤ cursor.toNat →
      (address.toNat < cursor.toNat ∨ overlapsFree free address size = true) →
      ∀ p ∈ freePieces (address + size) cursor free, p.2.toNat < size.toNat := by
  have hwrap : ∀ y : UInt64, address.toNat ≤ y.toNat → y.toNat < (address + size).toNat →
      (address + size).toNat = address.toNat + size.toNat := by
    intro y hy hlt
    have hz := toNat_lt_word size
    rw [UInt64.toNat_add] at hlt ⊢
    omega
  intro free
  induction free with
  | nil =>
    intro cursor hle hor p hp
    rw [freePieces] at hp
    split at hp
    next hlt =>
      rw [UInt64.lt_iff_toNat_lt] at hlt
      have hsum := hwrap cursor hle hlt
      rw [List.mem_singleton.mp hp, toNat_sub_of_le hlt.le]
      rcases hor with h | h
      · omega
      · simp [overlapsFree] at h
    · cases hp
  | cons other rest ih =>
    intro cursor hle hor p hp
    have hcons : overlapsFree (other :: rest) address size = true ↔
        (other.begin.toNat < (address + size).toNat ∧ address.toNat < (Spanned.stop other).toNat) ∨
        overlapsFree rest address size = true := by
      simp [overlapsFree, UInt64.lt_iff_toNat_lt]
    rw [hcons] at hor
    rw [freePieces] at hp
    simp only [UInt64.le_iff_toNat_le, UInt64.lt_iff_toNat_lt, ge_iff_le] at hp
    split at hp
    next hskip =>
      refine ih hle ?_ p hp
      rcases hor with h | ⟨h1, h2⟩ | h
      · exact .inl h
      · exact .inl (by omega)
      · exact .inr h
    next hskip =>
      rcases List.mem_append.mp hp with hp | hp
      · split at hp
        next hlt =>
          have hsum := hwrap other.begin (by omega) (by omega)
          rw [List.mem_singleton.mp hp, toNat_sub_of_le hlt.le]
          omega
        · cases hp
      · have hmax := toNat_wordMax cursor (Spanned.stop other)
        exact ih (by omega) (.inl (by omega)) p hp

def returnFreeExtent (free : List Extent) (address size : UInt64) : List Extent :=
  if size = 0 then free
  else if _h : overlapsFree free address size = true then
    (freePieces (address + size) address free).attach.foldl
      (fun acc p => returnFreeExtent acc p.1.1 p.1.2) free
  else insertFree free address size
termination_by size.toNat
decreasing_by exact freePieces_lt (Nat.le_refl _) (Or.inr _h) p.1 p.2

/-! ## The committed list -/

/-- The bisection of `FirstRangeEndingAfter`; the span halves every round, so
the length of the list is fuel enough. -/
def bisectEndingAfter (committed : List GuestRange) (address : UInt64) : Nat → Nat → Nat → Nat
  | 0, low, _ => low
  | fuel + 1, low, high =>
    if low < high then
      let middle := low + (high - low) / 2
      if Spanned.stop (committed.getD middle default) ≤ address
      then bisectEndingAfter committed address fuel (middle + 1) high
      else bisectEndingAfter committed address fuel low middle
    else low

def firstRangeEndingAfter (address : UInt64) : Nat :=
  bisectEndingAfter committed address committed.length 0 committed.length

/-- The loop of `UncommittedIn` over the ranges from the first that can matter. -/
def uncommittedFrom (stop : UInt64) : UInt64 → List GuestRange → List (UInt64 × UInt64)
  | cursor, [] => if cursor < stop then [(cursor, stop)] else []
  | cursor, range :: rest =>
    if range.begin ≥ stop then (if cursor < stop then [(cursor, stop)] else [])
    else
      let gap := if range.begin > cursor then [(cursor, wordMin range.begin stop)] else []
      let cursor' := wordMax cursor (Spanned.stop range)
      if cursor' ≥ stop then gap else gap ++ uncommittedFrom stop cursor' rest

def uncommittedIn (begin stop : UInt64) : List (UInt64 × UInt64) :=
  uncommittedFrom stop begin (committed.drop (firstRangeEndingAfter committed begin))

def committedFrom (begin stop : UInt64) : List GuestRange → List (UInt64 × UInt64)
  | [] => []
  | range :: rest =>
    if range.begin ≥ stop then []
    else (wordMax range.begin begin, wordMin (Spanned.stop range) stop) ::
      committedFrom begin stop rest

def committedIn (begin stop : UInt64) : List (UInt64 × UInt64) :=
  committedFrom begin stop (committed.drop (firstRangeEndingAfter committed begin))

/-- `Coalesce`: neighbours that touch and agree on protection, epoch and
`written` become one. -/
def coalesce : List GuestRange := Spanned.join committed

/-- `CommitRange`: what nothing lives in is mapped fresh, whole host pages
only and whether or not the host agrees; then the span, rounded out, is made
usable, and that answer is the one returned. -/
def commitRange (h : Host) (begin stop pageSize : UInt64) (hostProtection : HostProt)
    (committed : List GuestRange) : Bool × Host :=
  let fill := fun (h : Host) (gap : UInt64 × UInt64) =>
    let low := maskUp pageSize gap.1
    let high := maskDown pageSize gap.2
    if high > low then (h.mapFreshAnonymous low (high - low)).2 else h
  let h := (gapsFrom stop begin committed).foldl fill h
  let low := maskDown pageSize begin
  let high := maskUp pageSize stop
  h.mprotect low (high - low) hostProtection

namespace GuestAddressSpace

variable (s : GuestAddressSpace) (h : Host)

def markCommitted (address size : UInt64) : GuestAddressSpace :=
  if size ≠ 0 ∧ address ≥ s.base ∧ address + size ≤ s.base + s.size then
    let (first, count) := s.grainsOf address (address + size)
    { s with
      committedWords := (walkCodeMap s.codeWordCount true count first s.committedWords).2 }
  else s

def recordCommitted (address size : UInt64) (protection : Prot) : GuestAddressSpace :=
  let s := s.markCommitted address size
  let clipped := s.committed.flatMap (cut address (address + size) fun _ => [])
  let updated := clipped ++
    [⟨address, size, protection, s.nextEpoch, protection.has kGuestProtWrite⟩]
  { s with
    committed := coalesce (sortByBegin updated)
    nextEpoch := s.nextEpoch + 1 }

/-! ## Allocation -/

/-- What both ways of choosing an address do once `TakeFreeExtent` has taken
`[address, address + length)` and left `free`: commit it, or give it back. -/
def commitTaken (free : List Extent) (address length : UInt64) (protection : Prot) : Out UInt64 :=
  let s := { s with free }
  let (ok, h) := commitRange h address (address + length) s.pageSize
    (toHostProtection protection) s.committed
  if ok then
    let s := s.recordCommitted address length protection
    let s := if s.hasHeldCode address (address + length) ∧ address + length > address
      then s.notify address (address + length) else s
    ⟨address, h, s⟩
  else ⟨0, h, { s with free := returnFreeExtent s.free address length }⟩

/-- One pass of first fit over the extents: `low` is what an address may not be
below. `free` is the whole list, `extents` what is left to look at. -/
def firstFit (free : List Extent) (low length : UInt64) :
    List Extent → Option (UInt64 × List Extent)
  | [] => none
  | extent :: rest =>
    let from' := wordMax extent.begin low
    if from' ≥ Spanned.stop extent ∨ Spanned.stop extent - from' < length
    then firstFit free low length rest
    else match takeFreeExtent free from' length with
      | some free' => some (from', free')
      | none => firstFit free low length rest

/-- The two passes: above the floor if there is one and room there, anywhere
otherwise. -/
def findFit (length : UInt64) : Option (UInt64 × List Extent) :=
  let above := if s.floor ≠ 0 then firstFit s.free (s.alignUp s.floor) length s.free else none
  match above with
  | some found => some found
  | none => firstFit s.free 0 length s.free

def takeHint (hint length : UInt64) : Option (UInt64 × List Extent) :=
  let alignedHint := s.alignDown hint
  if hint ≠ 0 ∧ alignedHint ≥ s.base ∧ alignedHint + length ≤ s.base + s.size then
    (takeFreeExtent s.free alignedHint length).map fun free => (alignedHint, free)
  else none

def allocate (size hint : UInt64) (protection : Prot) : Out UInt64 :=
  if size = 0 then ⟨0, h, s⟩
  else
    let length := s.alignUp size
    match s.takeHint hint length with
    | some (address, free) => s.commitTaken h free address length protection
    | none =>
      match s.findFit length with
      | some (address, free) => s.commitTaken h free address length protection
      | none => ⟨0, h, s⟩

/-! ## Protection -/

/-- `protection_for`: exact for a piece wholly inside the request's whole host
pages, widened otherwise. -/
def protectionFor (strictBegin strictEnd : UInt64) (protection : Prot)
    (rangeBegin rangeEnd : UInt64) (existing : Prot) : Prot :=
  if rangeBegin ≥ strictBegin ∧ rangeEnd ≤ strictEnd then protection
  else existing ||| protection

/-- The part of a range that lies in `[begin, end)`, with its new protection. -/
def protectedPart (begin stop strictBegin strictEnd : UInt64) (protection : Prot)
    (range : GuestRange) : GuestRange :=
  let overlapBegin := wordMax range.begin begin
  let overlapEnd := wordMin (Spanned.stop range) stop
  { begin := overlapBegin
    size := overlapEnd - overlapBegin
    protection := protectionFor strictBegin strictEnd protection overlapBegin overlapEnd
      range.protection
    epoch := range.epoch
    written := range.written || protection.has kGuestProtWrite }

def protectLocked (address size : UInt64) (protection : Prot) : Out Bool :=
  let begin := s.alignDown address
  let stop := s.alignUp (address + size)
  let strictBegin := s.alignUp address
  let strictEnd := s.alignDown (address + size)
  let touched := s.committed.any fun range =>
    !(decide (Spanned.stop range ≤ begin) || decide (range.begin ≥ stop))
  if touched then
    let updated := s.committed.flatMap (cut begin stop fun range =>
      [protectedPart begin stop strictBegin strictEnd protection range])
    let s := { s with committed := coalesce (sortByBegin updated) }
    if protection.has kGuestProtWrite
    then ⟨true, (h.mprotect begin (stop - begin) protReadWrite).2, s⟩
    else ⟨true, h, s⟩
  else ⟨false, h, s⟩

def protect (address size : UInt64) (protection : Prot) : Out Bool :=
  let out := s.protectLocked h address size protection
  let begin := s.alignDown address
  let stop := s.alignUp (address + size)
  if out.ret ∧ out.space.hasHeldCode begin stop
  then { out with space := out.space.notify begin stop }
  else out

/-! ## Fixed commits and releases -/

/-- The free parts of a fixed mapping: each is taken, committed and recorded;
one the host refuses is skipped, and stays taken. -/
def commitGaps (protection : Prot) :
    List (UInt64 × UInt64) → GuestAddressSpace → Host → Host × GuestAddressSpace
  | [], s, h => (h, s)
  | (gapBegin, gapEnd) :: rest, s, h =>
    let s := { s with free := takeFreeSpan s.free gapBegin gapEnd }
    let (ok, h) := commitRange h gapBegin gapEnd s.pageSize
      (toHostProtection protection) s.committed
    if ok
    then commitGaps protection rest (s.recordCommitted gapBegin (gapEnd - gapBegin) protection) h
    else commitGaps protection rest s h

def commitFixed (address size : UInt64) (protection : Prot) : Out Bool :=
  if size = 0 then ⟨false, h, s⟩
  else
    let begin := s.alignDown address
    let stop := s.alignUp (address + size)
    if begin < s.base ∨ stop > s.base + s.size then ⟨false, h, s⟩
    else match takeFreeExtent s.free begin (stop - begin) with
      | none =>
        let (h, s) := commitGaps protection (uncommittedIn s.committed begin stop) s h
        s.protectLocked h begin (stop - begin) protection
      | some free =>
        let s := { s with free }
        let (ok, h) := commitRange h begin stop s.pageSize
          (toHostProtection protection) s.committed
        if ok then
          let s := s.recordCommitted begin (stop - begin) protection
          ⟨true, h, if s.hasHeldCode begin stop then s.notify begin stop else s⟩
        else ⟨false, h, { s with free := returnFreeExtent s.free begin (stop - begin) }⟩

/-- The pages of a released span nothing lives in, mapped fresh. A refusal is
only logged. -/
def dropGaps (gaps : List (UInt64 × UInt64)) (h : Host) : Host :=
  gaps.foldl (fun h gap =>
    let low := s.alignUp gap.1
    let high := s.alignDown gap.2
    if high ≤ low then h else (h.mapFreshAnonymous low (high - low)).2) h

def freeGaps (gaps : List (UInt64 × UInt64)) (free : List Extent) : List Extent :=
  gaps.foldl (fun free gap =>
    let low := s.alignUp gap.1
    let high := s.alignDown gap.2
    if high > low then returnFreeExtent free low (high - low) else free) free

def release (address size : UInt64) : Out Bool :=
  if size = 0 then ⟨false, h, s⟩
  else
    let begin := maskDown kGuestPage address
    let stop := maskUp kGuestPage (address + size)
    if begin < s.base ∨ stop > s.base + s.size then ⟨false, h, s⟩
    else
      let survivors := s.committed.flatMap (cut begin stop fun _ => [])
      let hadCode := s.committed.any fun range =>
        !(decide (Spanned.stop range ≤ begin) || decide (range.begin ≥ stop))
      let s := { s with committed := coalesce survivors }
      let gaps := uncommittedIn s.committed (s.alignDown begin) (s.alignUp stop)
      let h := s.dropGaps gaps h
      let s := { s with free := s.freeGaps gaps s.free }
      ⟨true, h, if hadCode then s.notify begin stop else s⟩

/-! ## Adopting, dropping, asking -/

def adoptCopiedMapping (address size : UInt64) (protection : Prot) (written : Bool) :
    Bool × GuestAddressSpace :=
  if size = 0 ∨ address < s.base ∨ address + size > s.base + s.size then (false, s)
  else match takeFreeExtent s.free address size with
    | none => (false, s)
    | some free =>
      let s := { s with free }.recordCommitted address size protection
      if written then (true, s)
      else (true, { s with
        committed := s.committed.map fun range =>
          if range.begin = address ∧ range.size = size
          then { range with written := false } else range })

def dropPages (address size : UInt64) : Host :=
  let low := s.alignUp address
  let high := s.alignDown (address + size)
  if high ≤ low ∨ low < s.base ∨ high > s.base + s.size then h
  else
    let (ok, h) := h.mapFreshAnonymous low (high - low)
    if ok then (h.mprotect low (high - low) protReadWrite).2 else h

def contains (address size : UInt64) : Bool :=
  decide (address ≥ s.base) && decide (size ≤ s.size) &&
    decide (address + size ≤ s.base + s.size)

def validateFrom (required : Prot) (stop : UInt64) : UInt64 → List GuestRange → Bool
  | _, [] => false
  | cursor, range :: rest =>
    if range.begin > cursor then false
    else if range.protection &&& required ≠ required then false
    else if Spanned.stop range ≥ stop then true
    else validateFrom required stop (Spanned.stop range) rest

def validate (address size : UInt64) (required : Prot) : Bool :=
  if size = 0 then true
  else if address > 0xFFFFFFFFFFFFFFFF - size then false
  else validateFrom required (address + size) address
    (s.committed.drop (firstRangeEndingAfter s.committed address))

def rangeFor (address : UInt64) : Option GuestRange :=
  s.committed.find? fun range =>
    decide (address ≥ range.begin) && decide (address < Spanned.stop range)

/-- What `RangeForNoWait` returns and writes: whether there is a range, that
range or the nearest to it, and whether it could look. -/
structure NoWait where
  found : Bool
  out : Option GuestRange
  known : Bool

/-- `RangeForNoWait`, when the lock is there to be taken and when not. -/
def rangeForNoWait (lockFree : Bool) (address : UInt64) : NoWait :=
  if !lockFree then ⟨false, none, false⟩
  else
    let index := firstRangeEndingAfter s.committed address
    match s.committed[index]? with
    | some range =>
      if range.begin > address then
        ⟨false, if index > 0 then s.committed[index - 1]? else some range, true⟩
      else ⟨true, some range, true⟩
    | none => ⟨false, if index > 0 then s.committed[index - 1]? else none, true⟩

def epochAt (address : UInt64) : UInt64 :=
  match s.committed[firstRangeEndingAfter s.committed address]? with
  | some range => if range.begin ≤ address then range.epoch else 0
  | none => 0

/-! ## Putting bytes back -/

structure Refusal where
  what : String
  range : Option GuestRange

/-- The walk of `RestoreIfUnchanged`: the ranges must follow on from one another,
be of the epoch asked for, and be writable. -/
def restoreFrom (epoch stop : UInt64) : UInt64 → List GuestRange → Except Refusal Unit
  | _, [] => .error ⟨"the mapping ends short of the copy", none⟩
  | cursor, range :: rest =>
    if range.begin > cursor then .error ⟨"nothing is mapped there any more", some range⟩
    else if range.epoch ≠ epoch then .error ⟨"a different mapping is there now", some range⟩
    else if !range.protection.has kGuestProtWrite then
      .error ⟨"it is no longer writable", some range⟩
    else if Spanned.stop range ≥ stop then .ok ()
    else restoreFrom epoch stop (Spanned.stop range) rest

/-- `RestoreIfUnchanged`, with the answer to `held_code` where it returns true. -/
def restoreIfUnchanged (address : UInt64) (bytes : Nat → UInt8) (size epoch : UInt64) :
    Except Refusal Bool × Host :=
  let stop := address + size
  match restoreFrom epoch stop address
      (s.committed.drop (firstRangeEndingAfter s.committed address)) with
  | .error refusal => (.error refusal, h)
  | .ok () =>
    let pageBegin := s.alignDown address
    let pageEnd := s.alignUp stop
    let (ok, h) := h.mprotect pageBegin (pageEnd - pageBegin) protReadWrite
    if ok then
      (.ok (s.hasHeldCode pageBegin pageEnd),
        h.store address size fun y => bytes (y - address.toNat))
    else (.error ⟨"the host will not allow writing there", none⟩, h)

end GuestAddressSpace

end Fathom
