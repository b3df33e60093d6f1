import Fathom.Proofs.Descriptors
import Fathom.Proofs.Wrap
import Fathom.Runtime.Transfers
import Fathom.Lib.Machine

/-!
# What goes in and out of a guest's memory

Descriptors that are passed on come first: to send, the loop tests an entry's end modulo
2^64, where a kernel tests it as a number.
-/

namespace Fathom

open Lib Spanned GuestAddressSpace

/-- What `GuestPointer` gives ends in the arena. -/
theorem Sys.guestPointer_limit {x : Sys} {g : Geometry} (hs : InArena g x.space)
    {a n p : UInt64} {writable : Bool} (h : x.guestPointer false a n writable = some p) :
    p.toNat + n.toNat ≤ g.limit := by
  simp only [Sys.guestPointer, Bool.not_false, Bool.true_and, Bool.not_eq_true'] at h
  split at h
  · cases h
  next hne =>
    split at h
    · cases h
    next hvalid =>
      obtain rfl := Option.some.inj h
      have hn : n ≠ 0 := fun hzero => hne (.inr hzero)
      obtain ⟨_, hall⟩ := ((validate_iff hs.inv.committed _ _ _).mp
        (Bool.eq_true_of_not_eq_false hvalid)).resolve_left hn
      have hpos : n.toNat ≠ 0 := fun hzero => hn (UInt64.toNat_inj.mp hzero)
      obtain ⟨r, hr, hhas, _⟩ := hall ((x.toHost a).toNat + n.toNat - 1) (by omega) (by omega)
      have hend := (hs.edges r hr).2.2
      have hlast := hhas.2
      omega

namespace ControlBuffer

/-! ## The walk of a kernel -/

variable (b : ControlBuffer)

def Entry (place : Nat) : Prop :=
  place + b.header.toNat ≤ b.length.toNat ∧ b.header ≤ b.lengthAt place ∧
  place + (b.lengthAt place).toNat ≤ b.length.toNat

instance (place : Nat) : Decidable (b.Entry place) :=
  inferInstanceAs (Decidable (_ ∧ _ ∧ _))

theorem sizes : b.header.toNat = b.width.toNat + 8 ∧ ∃ k, b.width.toNat = 2 ^ k := by
  unfold header width
  cases b.narrow with
  | false => exact ⟨rfl, 3, rfl⟩
  | true => exact ⟨rfl, 2, rfl⟩

theorem width_le : 0 < b.width.toNat ∧ b.width.toNat ≤ 8 := by
  unfold width
  cases b.narrow with
  | false => exact ⟨by decide, by decide⟩
  | true => exact ⟨by decide, by decide⟩

/-- The descriptors a Linux kernel finds from `place` on, and where it stops. -/
def linuxWalk (place : Nat) : List Int × Nat :=
  if b.Entry place then
    let rest := linuxWalk (place + roundUp b.width.toNat (b.lengthAt place).toNat)
    ((b.rightsAt place).fds ++ rest.1, rest.2)
  else ([], place)
termination_by b.length.toNat - place
decreasing_by
  rename_i hentry
  have hup := le_roundUp b.width_le.1 (b.lengthAt place).toNat
  have hlength := UInt64.le_iff_toNat_le.mp hentry.2.1
  have hheader := b.sizes.1
  have hend := hentry.2.2
  omega

def Inside (s : Walked) : Prop :=
  ∀ read ∈ s.reads, read.1 + read.2 ≤ b.length.toNat

/-- The loop ends, from `cursor` on. -/
def Ends (cursor : UInt64) (s : Walked) : Prop :=
  ∃ turns, b.walk turns cursor = some s

/-- The loop ends, reads nothing outside the buffer, and finds what a kernel does of the
descriptors that there are. -/
def Faithful (d : Descriptors) (place : Nat) : Prop :=
  ∃ s, b.Ends (UInt64.ofNat place) s ∧ b.Inside s ∧
  s.fds.filterMap d.hostFdFor = (b.linuxWalk place).1.filterMap d.hostFdFor

def Wraps (place : Nat) : Prop :=
  place + b.header.toNat ≤ b.length.toNat ∧ b.header ≤ b.lengthAt place ∧
  b.length.toNat < place + (b.lengthAt place).toNat ∧
  (place + (b.lengthAt place).toNat) % 2 ^ 64 ≤ b.length.toNat

/-! ## One turn -/

variable {b} {d : Descriptors} {place : Nat} {cursor : UInt64} {s : Walked}

theorem ends_of_stop {out : Walked} (h : ∀ turns, b.walk (turns + 1) cursor = some out) :
    b.Ends cursor s ↔ s = out := by
  constructor
  · rintro ⟨turns, hturns⟩
    cases turns with
    | zero => cases hturns
    | succ _ =>
      rw [h] at hturns
      exact (Option.some.inj hturns).symm
  · rintro rfl
    exact ⟨1, h 0⟩

theorem ends_of_step (hin : cursor + b.header ≤ b.length)
    (hgo : ¬ (b.lengthAt cursor.toNat < b.header ∨ cursor + b.lengthAt cursor.toNat > b.length)) :
    b.Ends cursor s ↔ ∃ rest, b.Ends (b.next cursor) rest ∧
    s = (b.headAt cursor.toNat).andThen ((b.rightsAt cursor.toNat).andThen rest) := by
  constructor
  · rintro ⟨turns, hturns⟩
    cases turns with
    | zero => cases hturns
    | succ turns =>
      simp only [walk, if_pos hin, if_neg hgo, Option.map_eq_some_iff] at hturns
      obtain ⟨rest, hrest, rfl⟩ := hturns
      exact ⟨rest, ⟨turns, hrest⟩, rfl⟩
  · rintro ⟨_, ⟨turns, hturns⟩, rfl⟩
    refine ⟨turns + 1, ?_⟩
    simp [walk, if_pos hin, if_neg hgo, hturns]

theorem inside_andThen {s rest : Walked} :
    b.Inside (s.andThen rest) ↔ b.Inside s ∧ b.Inside rest := by
  simp [Inside, Walked.andThen, or_imp, forall_and]

theorem inside_headAt (h : place + b.header.toNat ≤ b.length.toNat) :
    b.Inside (b.headAt place) := by
  have hheader := b.sizes.1
  simp only [Inside, headAt, List.forall_mem_cons, List.not_mem_nil, false_imp_iff,
    implies_true, and_true]
  omega

theorem toNat_count (h : b.header ≤ b.lengthAt place) : ((b.lengthAt place - b.header) / 4).toNat =
      ((b.lengthAt place).toNat - b.header.toNat) / 4 := by
  rw [UInt64.toNat_div, toNat_sub_of_le (UInt64.le_iff_toNat_le.mp h)]
  rfl

theorem inside_rightsAt_iff (h : b.header ≤ b.lengthAt place) :
    b.Inside (b.rightsAt place) ↔ (b.isRights place = true →
      ∀ index < ((b.lengthAt place).toNat - b.header.toNat) / 4,
        place + b.header.toNat + index * 4 + 4 ≤ b.length.toNat) := by
  unfold Inside rightsAt
  split
  next hrights => simp [hrights, toNat_count h]
  next hrights => simp [hrights]

/-! ## The whole walk -/

section Walk

variable (hroom : b.length.toNat + 4096 ≤ 2 ^ 64)
include hroom

theorem toNat_place (hplace : place ≤ b.length.toNat + 8) : (UInt64.ofNat place).toNat = place ∧
      (UInt64.ofNat place + b.header).toNat = place + b.header.toNat := by
  have hheader := b.sizes.1
  have hwidth := b.width_le.2
  have hword : place < 2 ^ 64 := by omega
  have hnat := UInt64.toNat_ofNat_of_lt' hword
  refine ⟨hnat, ?_⟩
  rw [toNat_add_of_lt (by omega), hnat]

theorem ends_at (hin : place + b.header.toNat ≤ b.length.toNat)
    (hlength : b.header ≤ b.lengthAt place)
    (hend : (place + (b.lengthAt place).toNat) % 2 ^ 64 ≤ b.length.toNat) (s : Walked) :
    b.Ends (UInt64.ofNat place) s ↔ ∃ rest, b.Ends (b.next (UInt64.ofNat place)) rest ∧
    s = (b.headAt place).andThen ((b.rightsAt place).andThen rest) := by
  have hplace : place ≤ b.length.toNat + 8 := by omega
  obtain ⟨hnat, hhead⟩ := toNat_place hroom hplace
  have hstep := @ends_of_step b (UInt64.ofNat place) s
    (by rw [UInt64.le_iff_toNat_le, hhead]; exact hin)
    (by rw [hnat, not_or, UInt64.not_lt, UInt64.not_lt]
        exact ⟨hlength, by rw [UInt64.le_iff_toNat_le, UInt64.toNat_add, hnat]; exact hend⟩)
  rwa [hnat] at hstep

theorem toNat_next (hentry : b.Entry place) : b.next (UInt64.ofNat place) =
        UInt64.ofNat (place + roundUp b.width.toNat (b.lengthAt place).toNat) ∧
      place + roundUp b.width.toNat (b.lengthAt place).toNat ≤ b.length.toNat + 8 := by
  obtain ⟨_, _, hend⟩ := hentry
  obtain ⟨_, k, hk⟩ := b.sizes
  have hin : place ≤ b.length.toNat + 8 := by omega
  have hplace := (toNat_place hroom hin).1
  have hwidth := b.width_le
  have hup := roundUp_lt hwidth.1 (b.lengthAt place).toNat
  have hle : place + roundUp b.width.toNat (b.lengthAt place).toNat ≤ b.length.toNat + 8 := by omega
  refine ⟨?_, hle⟩
  have hmask := toNat_maskUp hk (v := b.lengthAt place) (by omega)
  rw [← UInt64.toNat_inj, (toNat_place hroom hle).1, next, hplace,
    toNat_add_of_lt (by omega), hmask, hplace]

theorem faithful_of_entry (hentry : b.Entry place) :
    b.Faithful d place ↔ b.Faithful d (place + roundUp b.width.toNat (b.lengthAt place).toNat) := by
  obtain ⟨hin, hlength, hend⟩ := hentry
  have hstep := ends_at hroom hin hlength (by omega)
  have hreads : b.Inside (b.rightsAt place) := by
    rw [inside_rightsAt_iff hlength]
    omega
  have hfds : (b.linuxWalk place).1 = (b.rightsAt place).fds ++
      (b.linuxWalk (place + roundUp b.width.toNat (b.lengthAt place).toNat)).1 := by
    rw [linuxWalk, if_pos ⟨hin, hlength, hend⟩]
  unfold Faithful
  rw [hfds, ← (toNat_next hroom ⟨hin, hlength, hend⟩).1]
  simp only [hstep]
  constructor
  · rintro ⟨_, ⟨rest, hrest, rfl⟩, hinside, heq⟩
    refine ⟨rest, hrest, (inside_andThen.mp (inside_andThen.mp hinside).2).2, ?_⟩
    simpa [Walked.andThen, headAt] using heq
  · rintro ⟨rest, hrest, hinside, heq⟩
    refine ⟨_, ⟨rest, hrest, rfl⟩, inside_andThen.mpr ⟨inside_headAt hin,
      inside_andThen.mpr ⟨hreads, hinside⟩⟩, ?_⟩
    simpa [Walked.andThen, headAt] using heq

theorem faithful_of_stop (hplace : place ≤ b.length.toNat + 8) (hno : ¬ b.Entry place)
    (hwraps : ¬ b.Wraps place) : b.Faithful d place := by
  obtain ⟨hnat, hhead⟩ := toNat_place hroom hplace
  have hfds : (b.linuxWalk place).1 = [] := by rw [linuxWalk, if_neg hno]
  unfold Faithful
  rw [hfds]
  by_cases hin : place + b.header.toNat ≤ b.length.toNat
  · have hstop : b.lengthAt place < b.header ∨
        UInt64.ofNat place + b.lengthAt place > b.length := by
      by_contra hgo
      rw [not_or, UInt64.not_lt, UInt64.not_lt, UInt64.le_iff_toNat_le (a := _ + _),
        UInt64.toNat_add, hnat] at hgo
      by_cases hend : place + (b.lengthAt place).toNat ≤ b.length.toNat
      · exact hno ⟨hin, hgo.1, hend⟩
      · exact hwraps ⟨hin, hgo.1, Nat.lt_of_not_le hend, hgo.2⟩
    refine ⟨b.headAt place, (ends_of_stop fun turns => ?_).mpr rfl, inside_headAt hin, rfl⟩
    rw [walk, if_pos (by rw [UInt64.le_iff_toNat_le, hhead]; exact hin), hnat]
    exact if_pos hstop
  · refine ⟨⟨[], []⟩, (ends_of_stop fun turns => ?_).mpr rfl, by simp [Inside], rfl⟩
    rw [walk, if_neg]
    rw [UInt64.le_iff_toNat_le, hhead]
    exact hin

/-- The last descriptor of so long an entry is past the end of any buffer. -/
theorem not_faithful_of_wraps (hwraps : b.Wraps place) (hrights : b.isRights place = true) :
    ¬ b.Faithful d place := by
  obtain ⟨hin, hlength, hlong, hend⟩ := hwraps
  rintro ⟨_, hends, hinside, -⟩
  obtain ⟨_, -, rfl⟩ := (ends_at hroom hin hlength hend _).mp hends
  have hall := (inside_rightsAt_iff hlength).mp
    (inside_andThen.mp (inside_andThen.mp hinside).2).1 hrights
  have hlast := hall (((b.lengthAt place).toNat - b.header.toNat) / 4 - 1) (by omega)
  omega

theorem faithful_iff_stop (place : Nat) (hplace : place ≤ b.length.toNat + 8) :
    ¬ b.Entry (b.linuxWalk place).2 ∧ (b.linuxWalk place).2 ≤ b.length.toNat + 8 ∧
    (b.Faithful d place ↔ b.Faithful d (b.linuxWalk place).2) := by
  induction place using linuxWalk.induct b with
  | case1 _ hentry ih =>
    rw [faithful_of_entry hroom hentry, linuxWalk, if_pos hentry]
    exact ih (toNat_next hroom hentry).2
  | case2 place hno =>
    have hstop : (b.linuxWalk place).2 = place := by rw [linuxWalk, if_neg hno]
    rw [hstop]
    exact ⟨hno, hplace, Iff.rfl⟩

end Walk

end ControlBuffer

section Send

variable {x : Sys} {g : Geometry} {narrow : Bool} {address length : UInt64} {b : ControlBuffer}

theorem sendControl_room (hs : InArena g x.space)
    (hb : x.sendControl narrow address length = some b) : b.length.toNat + 4096 ≤ 2 ^ 64 := by
  unfold Sys.sendControl at hb
  split at hb
  · obtain ⟨_, hpointer, rfl⟩ := Option.map_eq_some_iff.mp hb
    have hlimit := Sys.guestPointer_limit hs hpointer
    have hroom := g.limit_add_page
    have hpage := Nat.le_of_dvd g.page_pos g.guestPage_dvd_page
    dsimp only
    omega
  · cases hb

/-- The loop that collects a message's descriptors ends, keeps to the guest's buffer and
finds those a kernel would, if the entry at which a kernel stops has not wrapped into the
buffer; and an entry of descriptors that has is read past the buffer's end. -/
theorem send_walk_faithful (hs : InArena g x.space)
    (hb : x.sendControl narrow address length = some b) (d : Descriptors) :
    let stop := (b.linuxWalk 0).2
    (¬ b.Wraps stop → b.Faithful d 0) ∧
      (b.isRights stop = true → (b.Faithful d 0 ↔ ¬ b.Wraps stop)) := by
  intro stop
  have hroom := sendControl_room hs hb
  obtain ⟨hno, hplace, hstop⟩ := ControlBuffer.faithful_iff_stop hroom 0 (Nat.zero_le _)
  have hgood : ¬ b.Wraps stop → b.Faithful d 0 := fun hwraps =>
    hstop.mpr (ControlBuffer.faithful_of_stop hroom hplace hno hwraps)
  refine ⟨hgood, fun hrights => ⟨fun hall hwraps => ?_, hgood⟩⟩
  exact ControlBuffer.not_faithful_of_wraps hroom hwraps hrights (hstop.mp hall)

end Send

/-- A process with one page of memory, and what is in it. -/
def holding (bytes : Nat → UInt8) : Sys :=
  ⟨⟨false, 0, onePage.space, .new false 0, LinuxSyscalls.new_agrees⟩, .empty,
    { onePage.host with mem := fun y => bytes (y - 0x100010000) }⟩

theorem inArena_onePage : InArena Geometry.oneMegabyte onePage.space := by
  refine ⟨rfl, listInv_onePage, ?_⟩
  unfold Edges
  decide +kernel

def heldControl (bytes : Nat → UInt8) (length : UInt64) : ControlBuffer :=
  ⟨false, fun k => (holding bytes).host.mem ((0x100010000 : UInt64).toNat + k), length⟩

theorem sendControl_holding (bytes : Nat → UInt8) {length : UInt64}
    (hlength : (16 : UInt64) ≤ length)
    (hvalid : onePage.space.validate 0x100010000 length kGuestProtRead = true) :
    (holding bytes).sendControl false 0x100010000 length = some (heldControl bytes length) := by
  have hne : ¬ ((0x100010000 : UInt64) = 0 ∨ length = 0) := by
    rintro (h | rfl)
    · exact absurd h (by decide)
    · exact absurd hlength (by decide)
  have hhost : (holding bytes).toHost 0x100010000 = 0x100010000 := by exact UInt64.add_zero _
  have hpointer : (holding bytes).guestPointer false 0x100010000 length false =
      some 0x100010000 := by
    rw [Sys.guestPointer, if_neg hne]
    rw [hhost, if_neg]
    rw [show (holding bytes).space = onePage.space from rfl, hvalid]
    decide
  rw [Sys.sendControl, if_pos ⟨by decide, hlength⟩, hpointer]
  rfl

/-- An empty entry, and one of length 2^64 - 1. -/
def endlessEntry (k : Nat) : UInt8 := if k = 0 then 16 else if 16 ≤ k ∧ k < 24 then 255 else 0

theorem send_walk_endless : InArena Geometry.oneMegabyte (holding endlessEntry).space ∧
      (holding endlessEntry).sendControl false 0x100010000 32 = some (heldControl endlessEntry 32) ∧
      ∀ turns, (heldControl endlessEntry 32).walk turns 0 = none := by
  have hstay : ∀ turns, (heldControl endlessEntry 32).walk turns 16 = none := by
    intro turns
    induction turns with
    | zero => rfl
    | succ _ ih =>
      have hnext : (heldControl endlessEntry 32).next 16 = 16 := by decide +kernel
      rw [ControlBuffer.walk, if_pos (by decide +kernel), hnext, ih]
      exact if_neg (by decide +kernel)
  refine ⟨inArena_onePage, sendControl_holding _ (by decide) (by decide +kernel), fun turns => ?_⟩
  cases turns with
  | zero => rfl
  | succ _ =>
    have hnext : (heldControl endlessEntry 32).next 0 = 16 := by decide +kernel
    rw [ControlBuffer.walk, if_pos (by decide +kernel), hnext, hstay]
    exact if_neg (by decide +kernel)

def oneRight (k : Nat) : UInt8 := if k = 0 then 20 else if k = 8 ∨ k = 12 then 1 else 0

theorem send_walk_oneRight :
    let b := heldControl oneRight 24
    let d : Descriptors := ⟨LinuxSyscalls.newFiles, ⟨fun _ => .empty, 0, 0⟩⟩
    InArena Geometry.oneMegabyte (holding oneRight).space ∧
      (holding oneRight).sendControl false 0x100010000 24 = some b ∧
      b.linuxWalk 0 = ([0], 24) ∧ b.Faithful d 0 := by
  intro b d
  have hb := @sendControl_holding oneRight 24 (by decide) (by decide +kernel)
  have hwalk : b.linuxWalk 0 = ([0], 24) := by decide +kernel
  refine ⟨inArena_onePage, hb, hwalk, (send_walk_faithful inArena_onePage hb d).1 ?_⟩
  exact fun hwraps => absurd hwraps.1 (by decide +kernel)

/-! ## Receiving -/

/-- Every descriptor that has arrived is in the table under a number that is written,
and nothing else is new there. The code closes none of them. -/
structure Accounted (d : Descriptors) (arrived : List HostDescriptor) (out : Received) : Prop where
  fresh : ∀ fd, fd ∈ out.written ↔ d.files.get fd = none ∧ out.after.files.get fd ≠ none
  hosts : out.written.map out.after.hostFdFor = arrived.map some

namespace Descriptors

theorem get_registerFile (d : Descriptors) (host : Option HostDescriptor) (path : List Char)
    (fd : Int) : (d.registerFile host path false).2.files.get fd =
      if fd = d.allocateFd then some { host, guestPath := path } else d.files.get fd :=
  d.files.get_put _ _ fd

theorem registerArrivals_spec (hosts : List HostDescriptor) : ∀ d : Descriptors,
    let out := d.registerArrivals hosts
    (∀ fd file, d.files.get fd = some file → out.2.files.get fd = some file) ∧
      (∀ fd, fd ∈ out.1 ↔ d.files.get fd = none ∧ out.2.files.get fd ≠ none) ∧
      out.1.map out.2.hostFdFor = hosts.map some := by
  induction hosts with
  | nil =>
    intro d
    refine ⟨fun _ _ h => h, fun fd => ?_, rfl⟩
    simp [registerArrivals]
  | cons host _ ih =>
    intro d
    obtain ⟨hkeep, hfresh, hhosts⟩ := ih (d.registerFile (some host) "socket:[fd]".toList false).2
    have hget := d.get_registerFile (some host) "socket:[fd]".toList
    have hfree : d.files.get d.allocateFd = none := d.files.lowestFree_spec.1
    have hmine := hkeep d.allocateFd _ ((hget _).trans (if_pos rfl))
    dsimp only [registerArrivals]
    refine ⟨fun fd file hfile => hkeep fd file ?_, fun fd => ?_, ?_⟩
    · rw [hget, if_neg, hfile]
      rintro rfl
      rw [hfree] at hfile
      cases hfile
    · rw [List.mem_cons, hfresh fd, hget fd]
      by_cases hfd : fd = d.allocateFd
      · subst hfd
        exact iff_of_true (.inl rfl) ⟨hfree, fun hnone => nomatch hmine.symm.trans hnone⟩
      · rw [if_neg hfd]
        exact or_iff_right hfd
    · rw [List.map_cons]
      congr 1
      exact congrArg (Option.bind · (·.host)) hmine

end Descriptors

theorem carriedIn_sublist (room : Nat) (entries : List HostEntry) :
    (carriedIn room entries).Sublist (carried entries) := by
  induction entries generalizing room with
  | nil => exact .slnil
  | cons entry _ ih =>
    cases entry with
    | rights fds => exact (List.take_sublist _ fds).append (ih _)
    | other _ => exact ih _

/-- What came with the message is all written to the guest, or is lost or left in its table
unseen: the first exactly when it fits in the host's buffer and in the guest's, and the
guest's is memory of its own. -/
theorem received_accounted_iff (x : Sys) (d : Descriptors) (narrow : Bool)
    (address length : UInt64) (entries : List HostEntry) :
    let arrived := if asksForControl narrow address length then carried entries else []
    Accounted d arrived (x.receiveControl d narrow address length entries) ↔
      (arrived = [] ∨
        (arrived.length = (carriedIn (cmsgSpace (4 * 64)) entries).length ∧
          controlNeeded narrow arrived.length ≤ length ∧
          x.guestPointer false address (wordMin (controlNeeded narrow arrived.length) length)
            true ≠ none)) := by
  intro arrived
  unfold Sys.receiveControl
  have hsub : (arrivals narrow address length entries).Sublist arrived := by
    simp only [arrivals, arrived]
    split
    · exact carriedIn_sublist _ _
    · exact .slnil
  have hroom : arrived ≠ [] → (carriedIn (cmsgSpace (4 * 64)) entries).length =
      (arrivals narrow address length entries).length := by
    simp only [arrivals, arrived]
    split
    · exact fun _ => rfl
    · exact fun h => absurd rfl h
  generalize arrivals narrow address length entries = delivered at hsub hroom
  obtain ⟨_, hfresh, hhosts⟩ := d.registerArrivals_spec delivered
  generalize d.registerArrivals delivered = out at hfresh hhosts
  obtain ⟨fds, after⟩ := out
  have hcount : fds.length = delivered.length := by
    rw [← @List.length_map _ _ fds after.hostFdFor, hhosts, List.length_map]
  have htold : ∀ out, Accounted d arrived out → out.written.length = arrived.length :=
    fun out hall => by simpa using congrArg List.length hall.hosts
  dsimp only at hfresh hhosts ⊢
  by_cases hnil : arrived = []
  · have hnone : delivered = [] := List.sublist_nil.mp (hnil ▸ hsub)
    have hfds : fds = [] := List.length_eq_zero_iff.mp (hcount.trans (by rw [hnone]; rfl))
    rw [if_pos hfds]
    refine iff_of_true ⟨fun fd => ?_, ?_⟩ (.inl hnil)
    · rw [← hfresh fd, hfds]
    · rw [hnil]
      rfl
  · rw [or_iff_right hnil, hroom hnil]
    have hunseen : ∀ written after, ¬ Accounted d arrived ⟨[], written, after⟩ :=
      fun _ _ hall => hnil (List.length_eq_zero_iff.mp (htold _ hall).symm)
    by_cases hall : arrived.length = delivered.length
    · obtain rfl := hsub.eq_of_length hall.symm
      have hfds : fds ≠ [] := fun h => hnil (List.length_eq_zero_iff.mp (by rw [← hcount, h]; rfl))
      rw [if_neg hfds, hcount, and_iff_right rfl]
      cases hpointer : x.guestPointer false address
          (wordMin (controlNeeded narrow arrived.length) length) true with
      | none => exact iff_of_false (hunseen _ _) (by simp)
      | some p =>
        by_cases hfits : controlNeeded narrow arrived.length ≤ length
        · rw [if_pos hfits]
          exact iff_of_true ⟨hfresh, hhosts⟩ ⟨hfits, by simp⟩
        · rw [if_neg hfits]
          exact iff_of_false (hunseen _ _) fun h => hfits h.1
    · refine iff_of_false (fun hacc => ?_) fun h => hall h.1
      have hlength := htold _ hacc
      split at hlength
      · exact hnil (List.length_eq_zero_iff.mp hlength.symm)
      · split at hlength
        · exact hnil (List.length_eq_zero_iff.mp hlength.symm)
        · split at hlength
          · exact hall (hlength.symm.trans hcount)
          · exact hnil (List.length_eq_zero_iff.mp hlength.symm)

theorem received_unseen :
    let d : Descriptors := ⟨LinuxSyscalls.newFiles, ⟨fun _ => .empty, 0, 0⟩⟩
    let out := (holding fun _ => 0).receiveControl d false 0x100010000 20
      [.rights [⟨5, false⟩, ⟨6, false⟩]]
    out.written = [] ∧ out.controlWritten = 0 ∧ d.files.get 3 = none ∧ d.files.get 4 = none ∧
      out.after.hostFdFor 3 = some ⟨5, false⟩ ∧ out.after.hostFdFor 4 = some ⟨6, false⟩ := by
  decide +kernel

/-! ## Strings -/

def GuestAddressSpace.ReadableAt (s : GuestAddressSpace) (y : Nat) : Prop :=
  ∃ r ∈ s.committed, Has r y ∧ r.protection &&& kGuestProtRead = kGuestProtRead

/-- The bytes before the first NUL from `start` on, which is among the first `limit` bytes,
and every byte up to it can be read. -/
structure Sys.IsString (x : Sys) (start limit : Nat) (bytes : List UInt8) : Prop where
  within : bytes.length < limit
  readable : ∀ k ≤ bytes.length, x.space.ReadableAt (start + k)
  held : bytes = (List.range bytes.length).map fun k => x.host.mem (start + k)
  noNul : 0 ∉ bytes
  ends : x.host.mem (start + bytes.length) = 0

namespace Sys

variable {x : Sys} {y start left : Nat}

theorem not_isString_zero {bytes : List UInt8} : ¬ x.IsString start 0 bytes :=
  fun h => Nat.not_lt_zero _ h.within

theorem isString_nil :
    x.IsString start (left + 1) [] ↔ x.space.ReadableAt start ∧ x.host.mem start = 0 := by
  constructor
  · exact fun h => ⟨h.readable 0 le_rfl, h.ends⟩
  · rintro ⟨hread, hnul⟩
    refine ⟨Nat.succ_pos _, fun k hk => ?_, rfl, List.not_mem_nil, hnul⟩
    rw [Nat.le_zero.mp hk]
    exact hread

theorem isString_cons {b : UInt8} {rest : List UInt8} : x.IsString start (left + 1) (b :: rest) ↔
    x.space.ReadableAt start ∧ b = x.host.mem start ∧ b ≠ 0 ∧ x.IsString (start + 1) left rest := by
  have hheld : b :: rest = (List.range (b :: rest).length).map (fun k => x.host.mem (start + k)) ↔
      b = x.host.mem start ∧
        rest = (List.range rest.length).map fun k => x.host.mem (start + 1 + k) := by
    simp [List.range_succ_eq_map, Function.comp_def, Nat.add_comm, Nat.add_left_comm]
  have hend : start + (b :: rest).length = start + 1 + rest.length := by
    rw [List.length_cons]
    omega
  constructor
  · rintro ⟨hwithin, hread, hbytes, hno, hnul⟩
    obtain ⟨hb, hrest⟩ := hheld.mp hbytes
    rw [List.mem_cons, not_or] at hno
    refine ⟨hread 0 (Nat.zero_le _), hb, fun h => hno.1 h.symm, Nat.lt_of_succ_lt_succ hwithin,
      fun k hk => ?_, hrest, hno.2, hend ▸ hnul⟩
    rw [Nat.add_assoc, Nat.add_comm 1]
    exact hread (k + 1) (Nat.succ_le_succ hk)
  · rintro ⟨hfirst, hb, hne, hwithin, hread, hrest, hno, hnul⟩
    refine ⟨Nat.succ_lt_succ hwithin, fun k hk => ?_, hheld.mpr ⟨hb, hrest⟩, ?_, hend ▸ hnul⟩
    · cases k with
      | zero => exact hfirst
      | succ k =>
        rw [Nat.add_comm k, ← Nat.add_assoc]
        exact hread k (Nat.le_of_succ_le_succ hk)
    · rw [List.mem_cons, not_or]
      exact ⟨fun h => hne h.symm, hno⟩

section

variable (hs : x.space.ListInv)
include hs

theorem readableAt_lt (h : x.space.ReadableAt y) : y + 1 < 2 ^ 64 := by
  obtain ⟨r, hr, hy, -⟩ := h
  have hfits := (hs.committed.proper r hr).fits
  unfold Has at hy
  omega

theorem readableAt_succ (h : x.space.ReadableAt y)
    (hedge : ¬ 4096 ∣ y + 1) : x.space.ReadableAt (y + 1) := by
  obtain ⟨r, hr, hy, hprot⟩ := h
  refine ⟨r, hr, ?_, hprot⟩
  have hend : y + 1 ≠ hi r := fun heq => hedge (heq ▸ (hs.committedEdges r hr).2)
  unfold Has at hy ⊢
  omega

theorem validate_one_iff (a : UInt64) :
    x.space.validate a 1 kGuestProtRead = true ↔ x.space.ReadableAt a.toNat := by
  rw [GuestAddressSpace.validate_iff hs.committed, or_iff_right (by decide)]
  constructor
  · exact fun h => h.2 _ le_rfl (Nat.lt_succ_self _)
  · intro h
    refine ⟨readableAt_lt hs h, fun y hlow hhigh => ?_⟩
    rw [← Nat.le_antisymm hlow (Nat.le_of_lt_succ hhigh)]
    exact h

theorem stringFrom_spec (host : UInt64) (left : Nat) : ∀ offset : UInt64,
    (offset = 0 ∨ ∃ y, x.space.ReadableAt y ∧ (host + offset).toNat = y + 1) →
    (∀ a ∈ (x.stringFrom host left offset).1, x.space.ReadableAt a.toNat) ∧
    ∀ bytes, (x.stringFrom host left offset).2 = some bytes ↔
    x.IsString (host + offset).toNat left bytes := by
  induction left with
  | zero =>
    intro offset _
    exact ⟨by simp [stringFrom], fun bytes => iff_of_false (by simp [stringFrom]) not_isString_zero⟩
  | succ _ ih =>
    intro offset hbefore
    -- Where the loop does not ask, the byte before is on the same page.
    have hasks : ((offset = 0 ∨ (host + offset) % kGuestPage = 0) ∧ x.space.validate (host + offset)
        1 kGuestProtRead = false) ↔ ¬ x.space.ReadableAt (host + offset).toNat := by
      rw [← Bool.not_eq_true, validate_one_iff hs, and_iff_right_iff_imp]
      intro hnot
      refine or_iff_not_imp_left.mpr fun hne => ?_
      obtain ⟨y, hy, heq⟩ := hbefore.resolve_left hne
      rw [heq] at hnot
      have hdvd := not_not.mp (mt (readableAt_succ hs hy) hnot)
      rw [← UInt64.toNat_inj, UInt64.toNat_mod, heq]
      exact Nat.mod_eq_zero_of_dvd hdvd
    unfold stringFrom
    by_cases hread : x.space.ReadableAt (host + offset).toNat
    · rw [if_neg fun h => hasks.mp h hread]
      by_cases hnul : x.host.mem (host + offset).toNat = 0
      · rw [if_pos hnul]
        refine ⟨by simpa using hread, fun bytes => ?_⟩
        cases bytes with
        | nil => exact iff_of_true rfl (isString_nil.mpr ⟨hread, hnul⟩)
        | cons b _ =>
          refine iff_of_false (by simp) fun h => ?_
          obtain ⟨-, hb, hne, -⟩ := isString_cons.mp h
          exact hne (hb.trans hnul)
      · rw [if_neg hnul]
        have hnext : (host + (offset + 1)).toNat = (host + offset).toNat + 1 := by
          rw [← UInt64.add_assoc]
          exact toNat_add_of_lt (readableAt_lt hs hread)
        obtain ⟨hreads, hvalue⟩ := ih (offset + 1) (.inr ⟨_, hread, hnext⟩)
        rw [hnext] at hvalue
        refine ⟨fun a ha => ?_, fun bytes => ?_⟩
        · rcases List.mem_cons.mp ha with rfl | ha
          · exact hread
          · exact hreads a ha
        · rw [Option.map_eq_some_iff]
          cases bytes with
          | nil => exact iff_of_false (by simp) fun h => hnul (isString_nil.mp h).2
          | cons b rest =>
            rw [isString_cons, ← hvalue]
            constructor
            · rintro ⟨_, hsome, heq⟩
              cases heq
              exact ⟨hread, rfl, hnul, hsome⟩
            · rintro ⟨-, rfl, -, hsome⟩
              exact ⟨rest, hsome, rfl⟩
    · rw [if_pos (hasks.mpr hread)]
      refine ⟨by simp, fun bytes => iff_of_false (by simp) fun h => ?_⟩
      exact hread (h.readable 0 (Nat.zero_le _))

end

/-- `ReadGuestString` reads only what the guest may read. It succeeds exactly on a string that
is somewhere else than at the guest's address 0, with that string; and where it fails, what it
was to write to is as it was. -/
theorem read_string_iff (hs : x.space.ListInv) (address limit : UInt64) (out : List UInt8) :
    let r := x.readGuestString address out limit
    (∀ a ∈ r.reads, x.space.ReadableAt a.toNat) ∧
      (r.ok = true ↔ address ≠ 0 ∧ ∃ bytes, x.IsString (x.toHost address).toNat limit.toNat bytes) ∧
      (∀ bytes, r.ok = true → (r.out = bytes ↔
        x.IsString (x.toHost address).toNat limit.toNat bytes)) ∧ (r.ok = false → r.out = out) := by
  obtain ⟨hreads, hvalue⟩ := stringFrom_spec hs (x.toHost address) limit.toNat 0 (.inl rfl)
  rw [UInt64.add_zero] at hvalue
  by_cases hzero : address = 0
  · simp [readGuestString, hzero]
  · simp only [readGuestString, if_neg hzero]
    generalize x.stringFrom (x.toHost address) limit.toNat 0 = walked at hreads hvalue
    obtain ⟨_, value⟩ := walked
    simp only [← hvalue]
    cases value with
    | none => exact ⟨hreads, by simp, by simp, fun _ => rfl⟩
    | some _ => exact ⟨hreads, by simp [hzero], by simp, by simp⟩

def twoLetters (k : Nat) : UInt8 := if k = 0 then 104 else if k = 1 then 105 else 0

theorem read_string_twoLetters :
    let x := holding twoLetters
    x.space.ListInv ∧ (x.readGuestString 0x100010000 [] 16).out = [104, 105] ∧
      x.IsString 0x100010000 16 [104, 105] := by
  have hall := @read_string_iff (holding twoLetters) listInv_onePage 0x100010000 16 []
  exact ⟨listInv_onePage, by decide +kernel,
    (hall.2.2.1 [104, 105] (by decide +kernel)).mp (by decide +kernel)⟩

/-- A page mapped at the guest's address 0, which is where its arena starts. -/
def pageAtZero : Sys :=
  let out := (new Geometry.oneMegabyte).commitFixed Host.fresh 0x100000000 0x4000 3
  ⟨⟨false, 0x100000000, out.space, .new false 0x100000000, rfl⟩, .empty, out.host⟩

theorem read_string_null : pageAtZero.space.ListInv ∧
    pageAtZero.IsString (pageAtZero.toHost 0).toNat 16 [] ∧
    (pageAtZero.readGuestString 0 [] 16).ok = false := by
  have hinv : pageAtZero.space.ListInv := (commitFixed_spec (listInv_new _) Host.fresh 3 (by decide)
    (show _ ≤ (0x100000000 : UInt64).toNat by decide) (by decide)).inv
  refine ⟨hinv, isString_nil.mpr ⟨?_, rfl⟩, rfl⟩
  exact (@validate_one_iff pageAtZero hinv _).mp (by decide +kernel)

end Sys

/-! ## Event counters -/

inductive EventCall where
  | read
  | write (v : UInt64)

/-- A counter, with the sums of what writes have been accepted and of what reads have given. -/
structure EventHistory where
  counter : EventCounter
  accepted : Nat
  returned : Nat

namespace EventHistory

def step (h : EventHistory) : EventCall → EventHistory
  | .read =>
    match h.counter.read with
    | (.error _, counter) => { h with counter }
    | (.ok v, counter) => { h with counter, returned := h.returned + v.toNat }
  | .write v =>
    match h.counter.write v with
    | (.error _, counter) => { h with counter }
    | (.ok _, counter) => { h with counter, accepted := h.accepted + v.toNat }

structure Balanced (initial : UInt64) (h : EventHistory) : Prop where
  sum : initial.toNat + h.accepted = h.returned + h.counter.value.toNat
  readable : 0 < h.counter.pipe ↔ h.counter.value ≠ 0

def Refuses (h : EventHistory) (e : EventCall) : Prop :=
  ∀ v, e = .write v → 2 ^ 64 - 2 < h.counter.value.toNat + v.toNat →
  ∃ errno, h.counter.write v = (.error errno, h.counter)

def Fits (h : EventHistory) (e : EventCall) : Prop :=
  ∀ v, e = .write v → v = 0xFFFFFFFFFFFFFFFF ∨ h.counter.value.toNat + v.toNat ≤ 2 ^ 64 - 2

structure Inv (initial : UInt64) (h : EventHistory) : Prop where
  sum : initial.toNat + h.accepted = h.returned + h.counter.value.toNat
  flag : h.counter.signalled = true ↔ h.counter.value ≠ 0
  pipe : h.counter.pipe = if h.counter.signalled then 1 else 0

variable {h : EventHistory} {initial : UInt64} {e : EventCall}

theorem Inv.balanced (hi : Inv initial h) : Balanced initial h := by
  refine ⟨hi.sum, ?_⟩
  rw [← hi.flag, hi.pipe]
  cases h.counter.signalled
  · simp
  · simp

theorem refuses_iff : h.Refuses e ↔ h.Fits e := by
  refine forall_congr' fun v => imp_congr_right fun _ => ?_
  by_cases hv : v = 0xFFFFFFFFFFFFFFFF
  · exact iff_of_true (fun _ => ⟨_, by rw [EventCounter.write, if_pos hv]⟩) (.inl hv)
  · have haccepted : ¬ ∃ errno, h.counter.write v = (.error errno, h.counter) := by
      rintro ⟨_, heq⟩
      simp only [EventCounter.write, if_neg hv] at heq
      split at heq
      · cases heq
      · cases heq
    rw [or_iff_right hv, ← Nat.not_lt]
    exact imp_iff_not haccepted

theorem Inv.read (hi : Inv initial h) : Inv initial (h.step .read) := by
  obtain ⟨hsum, hflag, hpipe⟩ := hi
  unfold step EventCounter.read
  by_cases hzero : h.counter.value = 0
  · rw [if_pos hzero]
    exact ⟨hsum, hflag, hpipe⟩
  · have hsignalled := hflag.mpr hzero
    rw [hsignalled] at hpipe
    rw [if_neg hzero]
    cases hsem : h.counter.semaphore with
    | false =>
      simp only [hsignalled]
      exact ⟨by simpa using hsum, by simp, by simp [hpipe]⟩
    | true =>
      have hone : (h.counter.value - 1).toNat = h.counter.value.toNat - 1 :=
        toNat_sub_of_le (Nat.one_le_iff_ne_zero.mpr fun hc => hzero (UInt64.toNat_inj.mp hc))
      have hpos : h.counter.value.toNat ≠ 0 := fun hc => hzero (UInt64.toNat_inj.mp hc)
      have hsum' : initial.toNat + h.accepted =
          h.returned + (1 : UInt64).toNat + (h.counter.value - 1).toNat := by
        rw [UInt64.toNat_one]
        omega
      simp only [if_true, hsignalled, and_true]
      by_cases hlast : h.counter.value - 1 = 0
      · rw [if_pos hlast]
        exact ⟨hsum', by simp [hlast], by simp [hpipe]⟩
      · rw [if_neg hlast]
        exact ⟨hsum', by simpa using hlast, hpipe⟩

theorem Inv.write (hi : Inv initial h) {v : UInt64} (hfits : h.Fits (.write v)) :
    Inv initial (h.step (.write v)) := by
  obtain ⟨hsum, hflag, hpipe⟩ := hi
  simp only [EventHistory.step, EventCounter.write]
  by_cases hv : v = 0xFFFFFFFFFFFFFFFF
  · rw [if_pos hv]
    exact ⟨hsum, hflag, hpipe⟩
  · rw [if_neg hv]
    have hadd : (h.counter.value + v).toNat = h.counter.value.toNat + v.toNat :=
      toNat_add_of_lt (by have := (hfits v rfl).resolve_left hv; omega)
    have hsum' : initial.toNat + (h.accepted + v.toNat) =
        h.returned + (h.counter.value + v).toNat := by
      omega
    cases hsignalled : h.counter.signalled with
    | true =>
      -- A sum that does not wrap is not zero if the counter was not.
      have hne : h.counter.value + v ≠ 0 := by
        intro hzero
        rw [← UInt64.toNat_inj, UInt64.toNat_zero] at hzero
        exact hflag.mp hsignalled (UInt64.toNat_inj.mp (by rw [UInt64.toNat_zero]; omega))
      rw [hsignalled] at hpipe
      simp only [Bool.not_true, Bool.false_eq_true, and_false]
      exact ⟨hsum', by simpa [hsignalled] using hne, by simp [hpipe]⟩
    | false =>
      rw [hsignalled] at hpipe
      simp only [Bool.not_false, and_true]
      by_cases hzero : h.counter.value + v = 0
      · rw [if_neg fun hne => hne hzero]
        exact ⟨hsum', by simp [hzero], by simpa [hsignalled] using hpipe⟩
      · rw [if_pos hzero]
        exact ⟨hsum', by simpa using hzero, by simpa using hpipe⟩

theorem Inv.step (hi : Inv initial h) (hfits : h.Fits e) : Inv initial (h.step e) := by
  cases e with
  | read => exact hi.read
  | write v => exact hi.write hfits

theorem inv_doEventfd (initial : UInt64) (semaphore : Bool) :
    Inv initial ⟨.doEventfd initial semaphore, 0, 0⟩ := by
  unfold EventCounter.doEventfd
  split
  next hne => exact ⟨by simp, by simpa using hne, by simp⟩
  next hzero => exact ⟨by simp, by simpa using hzero, by simp⟩

/-- In a run of reads and writes, every state is balanced and every write that would take the
counter past its range is refused, exactly if none of the values but `2^64 - 1` would. -/
theorem counter_balanced_iff (initial : UInt64) (semaphore : Bool) (events : List EventCall) :
    let h₀ : EventHistory := ⟨.doEventfd initial semaphore, 0, 0⟩
    (Throughout step (Balanced initial) h₀ events ∧ Along step Refuses h₀ events) ↔
      Along step Fits h₀ events := by
  intro h₀
  rw [along_congr fun _ _ => refuses_iff]
  refine and_iff_right_of_imp fun hfits => ?_
  have hall := @throughout_iff_along_within _ _ step (fun _ _ => True) (Balanced initial) Fits
    (Inv initial) (fun _ _ hi hf => hi.step hf)
    (fun _ _ hi hf _ => iff_true_intro (hi.step hf).balanced) h₀ events
    (inv_doEventfd initial semaphore) hfits
  exact hall.mpr ⟨(inv_doEventfd initial semaphore).balanced, along_true _ _⟩

theorem counter_wraps :
    (⟨.doEventfd 2 false, 0, 0⟩ : EventHistory).step (.write 0xFFFFFFFFFFFFFFFE) =
      ⟨⟨0, false, true, 1⟩, 2 ^ 64 - 2, 0⟩ := by
  rfl

end EventHistory

/-! ## Reads -/

section Vectored

variable {S : Type} {one : UInt64 → UInt64 → S → Except Errno UInt64 × S}
  {K : List (UInt64 × UInt64) → S → Prop} {D : S → Prop}

/-- `K` is what holds with some segments to go, and `D` what holds in the end. -/
theorem vectored_keeps (hdone : ∀ vectors s, K vectors s → D s)
    (hskip : ∀ v vectors s, v.2 = 0 → K (v :: vectors) s → K vectors s)
    (hone : ∀ v vectors s, v.2 ≠ 0 → K (v :: vectors) s → D (one v.1 v.2 s).2 ∧
      ∀ n, (one v.1 v.2 s).1 = .ok n → n.toNat ≤ v.2.toNat ∧
        (n = v.2 → K vectors (one v.1 v.2 s).2)) (vectors : List (UInt64 × UInt64)) :
    ∀ total s, K vectors s → D (vectored one vectors total s).2 ∧
      ∀ n, (vectored one vectors total s).1 = .ok n →
        n.toNat ≤ total.toNat + (vectors.map (·.2.toNat)).sum := by
  induction vectors with
  | nil =>
    intro total s hs
    refine ⟨hdone _ s hs, fun n hn => ?_⟩
    cases hn
    exact Nat.le_add_right _ _
  | cons v _ ih =>
    intro total s hs
    have hadd : ∀ n : UInt64, (total + n).toNat ≤ total.toNat + n.toNat := fun n => by
      exact Nat.mod_le _ _
    rw [List.map_cons, List.sum_cons]
    unfold vectored
    split
    next hzero =>
      obtain ⟨hkeeps, hsum⟩ := ih total s (hskip v _ s hzero hs)
      exact ⟨hkeeps, fun n hn => Nat.le_trans (hsum n hn) (by omega)⟩
    next hne =>
      obtain ⟨hkeeps, hn⟩ := hone v _ s hne hs
      generalize one v.1 v.2 s = out at hkeeps hn
      obtain ⟨ret, after⟩ := out
      cases ret with
      | error e =>
        refine ⟨hkeeps, fun n hret => ?_⟩
        dsimp only at hret
        split at hret
        · cases hret
          exact Nat.le_add_right _ _
        · cases hret
      | ok n =>
        obtain ⟨hle, hnext⟩ := hn n rfl
        have := hadd n
        dsimp only
        split
        · refine ⟨hkeeps, fun m hm => ?_⟩
          cases hm
          omega
        next hfull =>
          rw [UInt64.not_lt] at hfull
          have heq : n = v.2 := UInt64.toNat_inj.mp (Nat.le_antisymm hle hfull)
          obtain ⟨hrest, hsum⟩ := ih (total + n) after (hnext heq)
          exact ⟨hrest, fun m hm => Nat.le_trans (hsum m hm) (by omega)⟩

end Vectored

namespace Sys

variable {x x' : Sys} {buffer count n : UInt64} {a : Source} {file : Option LinuxSyscalls.OpenFile}

def bufferBytes (x : Sys) (buffer n : UInt64) : Set Nat :=
  {y | (x.toHost buffer).toNat ≤ y ∧ y < (x.toHost buffer).toNat + n.toNat}

structure ChangedIn (x : Sys) (bytes : Set Nat) (x' : Sys) : Prop where
  process : x'.process = x.process
  others : ∀ y, y ∉ bytes → x'.host.mem y = x.host.mem y

def Counts (file : Option LinuxSyscalls.OpenFile) : Bool :=
  file.any fun f => f.event.isSome || f.isTimer

theorem ChangedIn.refl (x : Sys) (bytes : Set Nat) : x.ChangedIn bytes x := ⟨rfl, fun _ _ => rfl⟩

theorem ChangedIn.trans {bytes more : Set Nat} {x'' : Sys} (h : x.ChangedIn bytes x')
    (h' : x'.ChangedIn more x'') (hsub : more ⊆ bytes) : x.ChangedIn bytes x'' :=
  ⟨h'.process.trans h.process, fun y hy =>
    (h'.others y fun hmem => hy (hsub hmem)).trans (h.others y hy)⟩

theorem storeBytes_changes (bytes : List UInt8) :
    x.ChangedIn (x.bufferBytes buffer (UInt64.ofNat bytes.length))
      (x.storeBytes (x.toHost buffer) bytes) := by
  refine ⟨rfl, fun y hy => ?_⟩
  rw [storeBytes, Host.store_mem]
  exact if_neg hy

theorem guestPointer_eq {writable : Bool} {data : UInt64}
    (h : x.guestPointer false buffer count writable = some data) :
    data = x.toHost buffer ∧ count ≠ 0 := by
  unfold guestPointer at h
  split at h
  · cases h
  · next hne =>
    dsimp only at h
    split at h
    · cases h
    · exact ⟨(Option.some.inj h).symm, fun hz => hne (.inr hz)⟩

/-- A counter's value comes to be stored: there is one, and the caller's bytes and the eight
that are stored can be written. -/
def Stores (x : Sys) (a : Source) (buffer count : UInt64) : Prop :=
  x.guestPointer false buffer count true ≠ none ∧ x.guestPointer false buffer 8 true ≠ none ∧
  ∃ v, a.value = .ok v

def ReadAs (x : Sys) (file : Option LinuxSyscalls.OpenFile) (a : Source) (buffer count : UInt64)
    (out : Except Errno UInt64 × Sys) : Prop :=
  (∃ e, out = (.error e, x) ∧ (Counts file = true → ¬ x.Stores a buffer count)) ∨
  ∃ n, out.1 = .ok n ∧ x.ChangedIn (x.bufferBytes buffer n) out.2 ∧
  ((Counts file = true ∧ x.Stores a buffer count ∧ n = 8) ∨
    ((Counts file = true → count = 0 ∧ ¬ x.Stores a buffer count) ∧ n.toNat ≤ count.toNat))

theorem doCounterRead_as (hcounts : Counts file = true)
    (hdata : x.guestPointer false buffer count true ≠ none) :
    x.ReadAs file a buffer count (x.doCounterRead buffer a.value) := by
  unfold doCounterRead
  split
  next hnone => exact .inl ⟨_, rfl, fun _ hstores => hstores.2.1 hnone⟩
  next herror =>
    refine .inl ⟨_, rfl, fun _ hstores => ?_⟩
    obtain ⟨_, hv⟩ := hstores.2.2
    cases herror.symm.trans hv
  next out v hout hv =>
    rw [(guestPointer_eq hout).1]
    have hstore := @storeBytes_changes x buffer
      ((List.range 8).map fun k => (v >>> (8 * k.toUInt64)).toUInt8)
    refine .inr ⟨8, rfl, hstore, .inl ⟨hcounts, ⟨hdata, ?_, v, hv⟩, rfl⟩⟩
    rw [hout]
    exact Option.some_ne_none _

theorem doRead_as (x : Sys) (file : Option LinuxSyscalls.OpenFile) (a : Source)
    (buffer count : UInt64) : x.ReadAs file a buffer count (x.doRead file a buffer count) := by
  unfold doRead
  split
  next hnone =>
    have hno : Counts file = true → ¬ x.Stores a buffer count := fun _ h => h.1 hnone
    by_cases hzero : count = 0
    · rw [if_pos hzero]
      exact .inr ⟨0, rfl, .refl _ _, .inr ⟨fun hc => ⟨hzero, hno hc⟩, Nat.zero_le _⟩⟩
    · rw [if_neg hzero]
      exact .inl ⟨_, rfl, hno⟩
  next data hdata =>
    have hsome : x.guestPointer false buffer count true ≠ none := by simp [hdata]
    obtain ⟨rfl, -⟩ := guestPointer_eq hdata
    cases file with
    | none => exact .inl ⟨_, rfl, nofun⟩
    | some f =>
      dsimp only
      split
      next hevent => exact doCounterRead_as (by simp [Counts, hevent]) hsome
      next hevent =>
        split
        next htimer => exact doCounterRead_as (by simp [Counts, htimer]) hsome
        next htimer =>
          have hno : ¬ Counts (some f) = true := by simp [Counts, hevent, htimer]
          cases hfill : a.fill count with
          | error e => exact .inl ⟨_, rfl, fun hc => absurd hc hno⟩
          | ok bytes =>
            have hshort := a.short count bytes hfill
            refine .inr ⟨_, rfl, storeBytes_changes bytes, .inr ⟨fun hc => absurd hc hno, ?_⟩⟩
            exact Nat.le_trans (Nat.mod_le _ _) hshort

def ReadFramed (x : Sys) (buffer count : UInt64) (out : Except Errno UInt64 × Sys) : Prop :=
  (∀ e, out.1 = .error e → x.ChangedIn ∅ out.2) ∧
  ∀ n, out.1 = .ok n → n.toNat ≤ count.toNat ∧ x.ChangedIn (x.bufferBytes buffer n) out.2

theorem readFramed_of_ok {out : Except Errno UInt64 × Sys} (hret : out.1 = .ok n) :
    x.ReadFramed buffer count out ↔
    n.toNat ≤ count.toNat ∧ x.ChangedIn (x.bufferBytes buffer n) out.2 := by
  constructor
  · exact fun h => h.2 n hret
  · intro h
    refine ⟨fun e he => ?_, fun m hm => ?_⟩
    · rw [hret] at he
      cases he
    · rw [hret] at hm
      cases hm
      exact h

/-- The segments of a `readv` of a counter, from the answer `k` on: the first that is not
empty gets no value, or has room for one; and if it has room for no more, so it goes on. -/
def Roomy (x : Sys) (answers : Nat → Source) : List (UInt64 × UInt64) → Nat → Prop
  | [], _ => True
  | v :: rest, k =>
    if v.2 = 0 then x.Roomy answers rest k
    else x.Stores (answers k) v.1 v.2 → 8 ≤ v.2 ∧ (v.2 = 8 → x.Roomy answers rest (k + 1))

theorem stores_congr (h : x'.process = x.process) :
    x'.Stores a buffer count ↔ x.Stores a buffer count := by
  unfold Stores guestPointer space toHost
  rw [h]

/-- That is so of `DoRead` unless it stores a counter's value into less than eight bytes; and
of `DoReadv`, with all its segments, if it never does. -/
theorem reads_framed_iff (x : Sys) (file : Option LinuxSyscalls.OpenFile) :
    (∀ (a : Source) (buffer count : UInt64),
      x.ReadFramed buffer count (x.doRead file a buffer count) ↔
        (Counts file = true → x.Stores a buffer count → 8 ≤ count)) ∧
    ∀ (answers : Nat → Source) (vectors : List (UInt64 × UInt64)),
      (Counts file = true → x.Roomy answers vectors 0) →
      let out := x.doReadv file answers vectors
      (∀ n, out.1 = .ok n → n.toNat ≤ (vectors.map (·.2.toNat)).sum) ∧
        x.ChangedIn {y | ∃ v ∈ vectors, y ∈ x.bufferBytes v.1 v.2} out.2 := by
  constructor
  · intro a buffer count
    rcases doRead_as x file a buffer count with ⟨e, hout, hno⟩ | ⟨n, hret, hchanged, hn⟩
    · rw [hout]
      exact iff_of_true ⟨fun _ _ => .refl _ _, fun _ h => by cases h⟩
        fun hc hstores => absurd hstores (hno hc)
    · rw [readFramed_of_ok hret, and_iff_left hchanged]
      rcases hn with ⟨hcounts, hstores, rfl⟩ | ⟨hno, hle⟩
      · simp [hcounts, hstores, UInt64.le_iff_toNat_le]
      · exact iff_of_true hle fun hc hstores => absurd hstores (hno hc).2
  · intro answers all hroomy
    let bytes : Set Nat := {y | ∃ v ∈ all, y ∈ x.bufferBytes v.1 v.2}
    have hrun := @vectored_keeps (Sys × Nat) (fun base length s =>
      ((s.1.doRead file (answers s.2) base length).1,
        (s.1.doRead file (answers s.2) base length).2, s.2 + 1))
      (fun vectors s => x.ChangedIn bytes s.1 ∧ vectors ⊆ all ∧
        (Counts file = true → x.Roomy answers vectors s.2)) (fun s => x.ChangedIn bytes s.1)
      (fun _ _ h => h.1) ?_ ?_ all 0 (x, 0) ⟨.refl _ _, fun _ h => h, hroomy⟩
    · exact ⟨fun n hn => by simpa using hrun.2 n hn, hrun.1⟩
    · rintro v _ s hzero ⟨hs, hall, hnext⟩
      refine ⟨hs, fun _ hv => hall (List.mem_cons_of_mem _ hv), fun hc => ?_⟩
      have hskip := hnext hc
      rwa [Roomy, if_pos hzero] at hskip
    · rintro v vectors s hne ⟨hs, hall, hnext⟩
      have hsame : ∀ n, s.1.bufferBytes v.1 n = x.bufferBytes v.1 n := fun n => by
        unfold bufferBytes toHost
        rw [hs.process]
      rcases doRead_as s.1 file (answers s.2) v.1 v.2 with ⟨e, hout, -⟩ | ⟨n, hret, hchanged, hn⟩
      · rw [hout]
        exact ⟨hs, fun _ h => by cases h⟩
      · have hplace : n.toNat ≤ v.2.toNat ∧ (n = v.2 → Counts file = true →
            x.Roomy answers vectors (s.2 + 1)) := by
          rw [stores_congr hs.process] at hn
          rcases hn with ⟨hc, hstores, rfl⟩ | ⟨hno, hle⟩
          · have hroom := hnext hc
            rw [Roomy, if_neg hne] at hroom
            obtain ⟨hlong, hrest⟩ := hroom hstores
            exact ⟨UInt64.le_iff_toNat_le.mp hlong, fun heq _ => hrest heq.symm⟩
          · exact ⟨hle, fun _ hc => absurd (hno hc).1 hne⟩
        have hafter : x.ChangedIn bytes (s.1.doRead file (answers s.2) v.1 v.2).2 := by
          refine hs.trans hchanged fun y hy => ⟨v, hall List.mem_cons_self, ?_⟩
          rw [hsame] at hy
          exact ⟨hy.1, by have := hy.2; omega⟩
        refine ⟨hafter, fun m hm => ?_⟩
        rw [hret] at hm
        cases hm
        exact ⟨hplace.1, fun heq => ⟨hafter, fun _ hv => hall (List.mem_cons_of_mem _ hv),
          hplace.2 heq⟩⟩

theorem read_four_gets_eight :
    let file : LinuxSyscalls.OpenFile := { event := some 0 }
    let out := (holding fun _ => 0).doRead (some file)
      ⟨.ok 0xFFFFFFFFFFFFFFFE, fun _ => .ok [], fun _ _ h => by cases h; exact Nat.zero_le _⟩
      0x100010000 4
    out.1 = .ok 8 ∧ out.2.host.mem 0x100010004 = 255 := by
  decide +kernel

end Sys

end Fathom
