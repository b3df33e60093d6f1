import Fathom.Runtime.SharedMemory
import Fathom.Lib.Machine
import Fathom.Proofs.ArenaRuns
import Fathom.Proofs.Family

/-!
# Who has a segment attached

The table of segments has one counter for each, and only `shmat` and `shmdt` move it. The
child of a fork has its parent's segments and is not counted, and what a process had when
it ran another program or exited stays counted. Of the memory the table keeps a guest
address alone, which is that memory in the arena the segment was made in and no other.

What the code does not keep is recorded beside it: the arena and the memory a segment was
made of, which memory map each process has, and what is attached in each map. A step is
`Sound` if what it gives back nobody has attached and is given back where it was made, and
if the address it hands out is the segment's memory. The condition on a step, `Orderly`,
is about who calls and from which arena, and about the processes with something attached
when one forks, exits or goes on to another program. Along a run of such steps the counter
of a segment is the number of its attachments, and whoever has one attached runs in its
arena (`Inv`); that makes every step sound.
-/

namespace Fathom

open Lib FathomSession SharedMemory Function

/-! ## Which arenas the events leave as they are -/

namespace FathomSession

variable {s : FathomSession} {pid q : Nat} {ptr ptr' : SpacePtr} {p : ProcessRecord}

def Runs (s : FathomSession) (q : Nat) : Prop := ∃ p, s.find q = some p ∧ p.finished = false

theorem find_releaseStretch (s : FathomSession) (x : Stretch) (q : Nat) :
    (s.releaseStretch x).find q = s.find q := by
  rw [releaseStretch]
  split
  · rfl
  · exact find_setSpace s _ _ _ q

theorem spaceAt_releaseArena (hused : s.usedByOther pid ptr' = true) :
    (s.releaseArena pid ptr).spaceAt ptr' = s.spaceAt ptr' := by
  cases ptr with
  | null | session => rfl
  | own id =>
    rw [releaseArena]
    split
    · rfl
    next hfree =>
      cases ptr' with
      | null | session => rfl
      | own id' =>
        have hid : id' ≠ id := by
          rintro rfl
          exact hfree hused
        simp only [spaceAt, Arenas.find, Arenas.erase, List.find?_filter]
        congr 2
        funext a
        by_cases ha : a.id = id'
        · simp [ha, hid]
        · simp [ha]

theorem execed_spaceAt (hfind : s.find pid = some p) (hne : p.previous.isSome = true →
    ptr ≠ if p.previousSpace = .null then .session else p.previousSpace) :
    (s.execed pid).spaceAt ptr = s.spaceAt ptr := by
  have hparent := (releaseParent_spaces s pid).spaceAt ptr
  obtain ⟨_, hfound⟩ := find_releaseParent hfind pid
  simp only [execed, hfound]
  cases hprevious : p.previous with
  | none => exact hparent
  | some program =>
    rw [hprevious] at hne
    exact (spaceAt_releaseProgramIn (hne rfl) program).trans hparent

theorem finishProcess_spaceAt (hfind : s.find pid = some p) (status : Int) (hq : q ≠ pid)
    (hlive : s.LiveNames q ptr) (hne : p.ownsProgram = true → ptr ≠ p.space) :
    (s.finishProcess pid status).spaceAt ptr = s.spaceAt ptr := by
  obtain ⟨s₃, p₃, hrenames, hp₃, -, hout, hspaces⟩ := finishProcess_renames hfind status
  have hused : s₃.usedByOther pid ptr = true :=
    (usedByOther_iff s₃ pid ptr).mpr ⟨q, hq, (hrenames.liveNames_other hq ptr).mpr hlive⟩
  have hboth : ((s₃.releaseArena pid p₃.space).releaseArena pid p₃.previousSpace).spaceAt ptr =
      s₃.spaceAt ptr := by
    refine (spaceAt_releaseArena ?_).trans (spaceAt_releaseArena hused)
    rw [usedByOther_iff] at hused ⊢
    simpa only [LiveNames, find, (releaseArena_rest s₃ pid p₃.space).1] using hused
  rw [hout]
  simp only [releaseOwnArenas, hp₃]
  split
  · exact hboth.trans (hspaces ptr hne)
  · exact hboth.trans (hspaces ptr hne)

/-! ## Which processes the events leave where they are -/

/-- The process is one the event has made, or has gone on to another program. -/
def Renewed (s : FathomSession) (c : Settings) (q : Nat) : ProcessEvent → Prop
  | .fork r a => (s.forkProcess c r a).1 = q
  | .exec pid a k hops r envp => q = pid ∧ ((s.find pid).any (!·.finished) &&
      (s.execProcess c a k hops pid r envp).any (·.1.isNone)) = true
  | _ => False

/-- It was there before and, if it still runs, did so in the same arena. -/
def Was (s : FathomSession) (q : Nat) (p' : ProcessRecord) : Prop :=
  ∃ p, s.find q = some p ∧ (p'.finished = false → p.finished = false ∧ p.space = p'.space)

theorem was_of_find {p' : ProcessRecord} (h : s.find q = some p') : s.Was q p' :=
  ⟨p', h, fun hlive => ⟨hlive, rfl⟩⟩

theorem was_of_names {s' : FathomSession} {p' : ProcessRecord}
    (hnames : (s'.find q).map ProcessRecord.naming = (s.find q).map ProcessRecord.naming)
    (hp' : s'.find q = some p') : s.Was q p' := by
  obtain ⟨p, hp, hnaming⟩ := exists_of_naming hnames.symm hp'
  simp only [ProcessRecord.naming, Prod.mk.injEq] at hnaming
  exact ⟨p, hp, fun hlive => ⟨hnaming.1.trans hlive, hnaming.2.1⟩⟩

theorem step_was (s : FathomSession) (c : Settings) (e : ProcessEvent) {p' : ProcessRecord}
    (hp' : (s.step c e).find q = some p') : s.Was q p' ∨ s.Renewed c q e := by
  cases e with
  | fork r a =>
    obtain ⟨_, _, hadds, -, ⟨_, -, hout⟩ | ⟨_, -, hout⟩⟩ := forkProcess_cases s c r a
    · rw [step, hout] at hp'
      exact .inl (was_of_names (hadds.names q) hp')
    · by_cases hq : q = s.table.nextPid
      · refine .inr ?_
        rw [Renewed, hout, hq]
        rfl
      · rw [step, hout, find_startChild, if_neg hq] at hp'
        exact .inl (was_of_names (hadds.names q) hp')
  | exec pid a k hops r envp =>
    by_cases hguard : ∃ p, s.find pid = some p ∧ p.finished = false
    · obtain ⟨p, hfind, hlive⟩ := hguard
      rcases execProcess_step hfind hlive c a k hops r envp with ⟨hsame, -⟩ | ⟨e, hout, hanswer, -⟩
      · rw [hsame] at hp'
        exact .inl (was_of_find hp')
      · obtain ⟨_, _, hreached, hend⟩ := execProgram_cases hfind c a e
        obtain ⟨_, hadds⟩ := hreached.adds
        rcases hend with ⟨_, hend⟩ | ⟨_, _, _, hend⟩
        · rw [hout, hend] at hp'
          exact .inl (was_of_names (hadds.names q) hp')
        · by_cases hq : q = pid
          · refine .inr ⟨hq, ?_⟩
            rw [hanswer, hend, live_iff.mpr ⟨p, hfind, hlive⟩]
            rfl
          · rw [hout, hend, find_modify, if_neg hq] at hp'
            exact .inl (was_of_names (hadds.names q) hp')
    · rw [step, if_neg (mt live_iff.mp hguard)] at hp'
      exact .inl (was_of_find hp')
  | execed pid =>
    rw [step] at hp'
    split at hp'
    · exact .inl (was_of_names ((execed_adds s pid).names q) hp')
    · exact .inl (was_of_find hp')
  | exit pid status =>
    rw [step] at hp'
    split at hp'
    next hends =>
      obtain ⟨p, hfind, -⟩ := ends_iff.mp hends
      obtain ⟨_, p₃, hrenames, hp₃, hnaming, hout, -⟩ := finishProcess_renames hfind status
      have hfrees := releaseOwnArenas_frees hp₃
      rw [hout] at hp'
      by_cases hq : q = pid
      · subst hq
        obtain ⟨_, hp₄, hfinished, -⟩ := hfrees.own
        cases hp'.symm.trans hp₄
        refine .inl ⟨p, hfind, fun hlive => ?_⟩
        rw [hfinished, show p₃.finished = true from congrArg Prod.fst hnaming] at hlive
        cases hlive
      · rw [hfrees.others q hq] at hp'
        exact .inl (was_of_names (hrenames.others q hq) hp')
    next => exact .inl (was_of_find hp')
  | wait callerPid wantedPid =>
    rw [step] at hp'
    rcases waitForChild_cases s callerPid wantedPid with heq | ⟨_, _, -, -, heq⟩
    · rw [heq] at hp'
      exact .inl (was_of_find hp')
    · rw [heq, find_reaped] at hp'
      split at hp'
      · cases hp'
      · exact .inl (was_of_find hp')

end FathomSession

/-! ## What the calls do to the table -/

namespace SharedMemory

variable {m : SharedMemory} {p : ProcessRecord}

/-- No segment is new, and of the one named by `d` the counter is one less. -/
structure Trims (d : Option Int) (m m' : SharedMemory) : Prop where
  get : ∀ id g, m'.segments.get id = some g →
    ∃ old, m.segments.get id = some old ∧ old.guestAddress = g.guestAddress ∧
      g.attachments = old.attachments - if d = some id then 1 else 0
  nextId : m'.nextId = m.nextId
  find : ∀ q, m'.session.find q = m.session.find q

theorem Trims.of_segments {m' : SharedMemory} (hsegments : m'.segments = m.segments)
    (hnext : m'.nextId = m.nextId) (hfind : ∀ q, m'.session.find q = m.session.find q) :
    Trims none m m' :=
  ⟨fun _ g hg => ⟨g, hsegments ▸ hg, rfl, by simp⟩, hnext, hfind⟩

theorem Trims.refl (m : SharedMemory) : Trims none m m := .of_segments rfl rfl fun _ => rfl

theorem trims_put {d : Option Int} {id : Int} {g g' : SharedSegment}
    (hget : m.segments.get id = some g) (haddress : g'.guestAddress = g.guestAddress)
    (hcount : g'.attachments = g.attachments - if d = some id then 1 else 0)
    (hd : ∀ x, d = some x → x = id) : Trims d m { m with segments := m.segments.put id g' } := by
  refine ⟨fun x v hv => ?_, rfl, fun _ => rfl⟩
  rw [Table.get_put] at hv
  split at hv
  next hx =>
    cases hv
    exact ⟨g, hx ▸ hget, haddress.symm, hx ▸ hcount⟩
  next hx =>
    refine ⟨v, hv, rfl, ?_⟩
    rw [if_neg fun h => hx (hd x h), Nat.sub_zero]

theorem trims_freeSegment (m : SharedMemory) (p : ProcessRecord) {d : Option Int} {id : Int}
    (hd : ∀ x, d = some x → x = id) (g : SharedSegment) :
    Trims d m (m.freeSegment p id g).after := by
  refine ⟨fun x v hv => ?_, rfl, find_releaseStretch _ _⟩
  rw [freeSegment, Table.get_drop] at hv
  split at hv
  · cases hv
  next hx =>
    refine ⟨v, hv, rfl, ?_⟩
    rw [if_neg fun h => hx (hd x h), Nat.sub_zero]

theorem doShmget_cases (m : SharedMemory) (p : ProcessRecord) (key : Int) (size : UInt64)
    (flags : UInt32) : ((m.doShmget p key size flags).allocated = none ∧
      Trims none m (m.doShmget p key size flags).after) ∨
    ∃ address, (m.doShmget p key size flags).allocated =
        some (m.nextId, ⟨p.space, address, size⟩) ∧ (m.doShmget p key size flags).after.segments =
        m.segments.put m.nextId ⟨key, p.syscalls.toGuest address, size, 0, false⟩ ∧
      (m.doShmget p key size flags).after.nextId = m.nextId + 1 ∧
      ∀ q, (m.doShmget p key size flags).after.session.find q = m.session.find q := by
  have hquiet : ∀ ret, (m.answer ret).allocated = none ∧ Trims none m (m.answer ret).after :=
    fun ret => ⟨rfl, .refl m⟩
  rw [doShmget]
  split
  · split
    · exact .inl (hquiet _)
    · split
      · exact .inl (hquiet _)
      · exact .inl (hquiet _)
  · split
    · exact .inl (hquiet _)
    · split
      · exact .inl (hquiet _)
      · simp only [newSegment]
        split
        · exact .inl (hquiet _)
        · have hfind := find_setSpace m.session p.space
          split
          · exact .inl ⟨rfl, .of_segments rfl rfl (hfind _ _)⟩
          · exact .inr ⟨_, rfl, rfl, rfl, hfind _ _⟩

theorem atAddress_spec {address : UInt64} {id : Int} {g : SharedSegment}
    (h : m.atAddress address = some (id, g)) :
    m.segments.get id = some g ∧ g.guestAddress = address := by
  simp only [atAddress, Option.bind_eq_some_iff, Option.map_eq_some_iff] at h
  obtain ⟨_, hfirst, g', hget, rfl, rfl⟩ := h
  obtain ⟨_, hget', haddress⟩ := Table.firstWhere_spec hfirst
  rw [hget, Option.some.injEq] at hget'
  subst hget'
  exact ⟨hget, eq_of_beq haddress⟩

theorem trims_doShmdt {address : UInt64} {id : Int} {g : SharedSegment}
    (hat : m.atAddress address = some (id, g)) (p : ProcessRecord) :
    (m.doShmdt p address).ret = 0 ∧ Trims (some id) m (m.doShmdt p address).after := by
  have hid : ∀ x, some id = some x → x = id := fun x h => (Option.some.inj h).symm
  simp only [doShmdt, hat]
  split
  · exact ⟨rfl, trims_freeSegment m p hid g⟩
  · exact ⟨rfl, trims_put (atAddress_spec hat).1 rfl (by simp) hid⟩

theorem trims_doShmctlRmid (m : SharedMemory) (p : ProcessRecord) (id : Int) :
    Trims none m (m.doShmctlRmid p id).after := by
  rw [doShmctlRmid]
  split
  · exact .refl m
  next g hget =>
    split
    · exact trims_freeSegment m p (by simp) g
    · exact trims_put hget rfl (by simp) (by simp)

theorem doShmdt_released {address : UInt64} {id : Int} {x : Stretch}
    (h : (m.doShmdt p address).released = some (id, x)) : ∃ g, m.atAddress address = some (id, g) ∧
    g.attachments ≤ 1 ∧ x = stretchOf p g := by
  rw [doShmdt] at h
  split at h
  · cases h
  next id' g hat =>
    split at h
    next hlast =>
      cases h
      exact ⟨g, hat, Nat.le_of_sub_eq_zero hlast.2, rfl⟩
    next => cases h

theorem doShmctlRmid_released {id id' : Int} {x : Stretch}
    (h : (m.doShmctlRmid p id).released = some (id', x)) : ∃ g, m.segments.get id = some g ∧
    g.attachments = 0 ∧ id' = id ∧ x = stretchOf p g := by
  rw [doShmctlRmid] at h
  split at h
  · cases h
  next g hget =>
    split at h
    next hunused =>
      cases h
      exact ⟨g, hget, hunused, rfl, rfl⟩
    next => cases h

end SharedMemory

/-! ## What the table leaves out -/

structure Origin where
  space : SpacePtr
  base : UInt64
  memory : UInt64

structure Attachment where
  map : Nat
  id : Int
  address : UInt64

structure ShmHistory where
  now : SharedMemory
  origin : Int → Option Origin
  mapOf : Nat → Nat
  nextMap : Nat
  attached : List Attachment

namespace ShmHistory

def start (s : FathomSession) : ShmHistory :=
  ⟨⟨s, .empty, 1⟩, fun _ => none, id, s.table.nextPid, []⟩

variable (h : ShmHistory)

def HasAttached (q : Nat) (id : Int) : Prop :=
  h.now.session.Runs q ∧ ∃ a ∈ h.attached, a.map = h.mapOf q ∧ a.id = id

def attachedAt (pid : Nat) (address : UInt64) : Option Attachment :=
  h.attached.find? fun a => a.map == h.mapOf pid && a.address == address

def detached (pid : Nat) (address : UInt64) : List Attachment :=
  h.attached.eraseP fun a => a.map == h.mapOf pid && a.address == address

def newMap (pid : Nat) : ShmHistory :=
  { h with mapOf := update h.mapOf pid h.nextMap, nextMap := h.nextMap + 1 }

/-- The child of a fork gets a copy of its parent's map, and a clone onto a stack of its
own shares it. -/
def forked (r : ForkArguments) (child : Int) : ShmHistory :=
  if child < 0 then h
  else if r.ownStack then { h with mapOf := update h.mapOf child.toNat (h.mapOf r.caller) }
  else
    { h.newMap child.toNat with
      attached := h.attached ++ (h.attached.filter fun a => a.map == h.mapOf r.caller).map
        fun a => { a with map := h.nextMap } }

def remapped (c : Settings) : ProcessEvent → ShmHistory
  | .fork r a => h.forked r (h.now.session.forkProcess c r a).1
  | .exec pid a k hops r envp =>
    if (h.now.session.find pid).any (!·.finished) &&
        (h.now.session.execProcess c a k hops pid r envp).any (·.1.isNone)
    then h.newMap pid else h
  | _ => h

def step (c : Settings) (h : ShmHistory) : ShmEvent → ShmHistory
  | .shmget pid key size flags =>
    match h.now.caller pid with
    | none => h
    | some p =>
      let out := h.now.doShmget p key size flags
      { h with
        now := out.after
        origin := match out.allocated with
          | none => h.origin
          | some (id, x) => update h.origin id
              (some ⟨x.space, p.syscalls.guestBase, x.address⟩) }
  | .shmat pid id =>
    match h.now.caller pid with
    | none => h
    | some _ =>
      let out := h.now.doShmat id
      { h with
        now := out.after
        attached := if (h.now.segments.get id).isSome
          then h.attached ++ [⟨h.mapOf pid, id, out.ret⟩] else h.attached }
  | .shmdt pid address =>
    match h.now.caller pid with
    | none => h
    | some p =>
      let out := h.now.doShmdt p address
      { h with
        now := out.after
        attached := if out.ret = 0 then h.detached pid address else h.attached }
  | .rmid pid id =>
    match h.now.caller pid with
    | none => h
    | some p => { h with now := (h.now.doShmctlRmid p id).after }
  | .process e =>
    let mapped := h.remapped c e
    { mapped with now := { mapped.now with session := h.now.session.step c e } }

end ShmHistory

open ShmHistory

/-! ## What a step is to live up to, and when it does -/

def ProcessRecord.Shows (p : ProcessRecord) (o : Origin) (address : UInt64) : Prop :=
  p.space = o.space ∧ p.syscalls.toHost address = o.memory

def ProcessRecord.At (p : ProcessRecord) (o : Origin) : Prop :=
  p.space = o.space ∧ p.syscalls.guestBase = o.base
  deriving Decidable

/-- Where the program lies that a process leaves when it goes on to another. -/
def ProcessRecord.leaves (p : ProcessRecord) : SpacePtr :=
  if p.previousSpace = .null then .session else p.previousSpace

namespace ShmHistory

/-- What is given back is the memory the segment was made of, and nobody has it attached
afterwards. -/
def ReleasesSpare (h after : ShmHistory) (released : Option (Int × Stretch)) : Prop :=
  ∀ id x, released = some (id, x) →
  (∃ o, h.origin id = some o ∧ x.space = o.space ∧ x.address = o.memory) ∧
  ∀ q, ¬ after.HasAttached q id

/-- No arena changes that somebody has a segment of attached. -/
def Spares (c : Settings) (h : ShmHistory) (e : ProcessEvent) : Prop :=
  ∀ q id o, (h.step c (.process e)).HasAttached q id → h.origin id = some o →
  (h.now.session.step c e).spaceAt o.space = h.now.session.spaceAt o.space

/-- A call gives back what is spare and hands out an address of the segment's memory, in
the arena that everybody runs in who has the segment attached. An exit and the end of an
exec, which give back programs and arenas, spare the segments; the other events take no
arena away. -/
def Sound (c : Settings) (h : ShmHistory) : ShmEvent → Prop
  | .shmget _ _ _ _ => True
  | .shmat pid id => ∀ p g o, h.now.caller pid = some p → h.now.segments.get id = some g →
      h.origin id = some o → p.Shows o (h.now.doShmat id).ret ∧
        ∀ q p', h.now.caller q = some p' → (h.step c (.shmat pid id)).HasAttached q id →
          p'.space = o.space
  | .shmdt pid address => ∀ p, h.now.caller pid = some p →
      h.ReleasesSpare (h.step c (.shmdt pid address)) (h.now.doShmdt p address).released
  | .rmid pid id => ∀ p, h.now.caller pid = some p →
      h.ReleasesSpare (h.step c (.rmid pid id)) (h.now.doShmctlRmid p id).released
  | .process (.exit pid status) => h.Spares c (.exit pid status)
  | .process (.execed pid) => h.Spares c (.execed pid)
  | .process e => h.now.session.arenaIds ⊆ (h.now.session.step c e).arenaIds

def Uses (h : ShmHistory) (q : Nat) : Prop := ∃ a ∈ h.attached, a.map = h.mapOf q
  deriving Decidable

/-- Of the processes that run in the arena, only `pid` may have something attached. -/
def LeftTo (h : ShmHistory) (pid : Option Nat) (ptr : SpacePtr) : Prop :=
  ∀ q < h.now.session.table.nextPid, some q ≠ pid → ∀ p ∈ h.now.caller q, p.space = ptr → ¬ h.Uses q

/-- The condition on a step. A segment is attached from the arena it was made in, by a
process whose map only processes of that arena share, and is detached and removed from
there, by one that has it attached. Nobody forks with a segment attached. A process that
exits, or has gone on to another program, gives back a program in whose arena nobody else
has one attached. -/
def Orderly (h : ShmHistory) : ShmEvent → Prop
  | .shmget _ _ _ _ => True
  | .shmat pid id => ∀ p ∈ h.now.caller pid, ∀ o ∈ h.origin id, p.At o ∧
      ∀ q < h.now.session.table.nextPid, h.mapOf q = h.mapOf pid →
        ∀ p' ∈ h.now.caller q, p'.space = o.space
  | .shmdt pid address => ∀ p ∈ h.now.caller pid, ∀ found ∈ h.now.atAddress address,
      (∀ o ∈ h.origin found.1, p.At o) ∧ (h.attachedAt pid address).map Attachment.id = some found.1
  | .rmid pid id => ∀ p ∈ h.now.caller pid, ∀ g ∈ h.now.segments.get id, g.attachments = 0 →
      ∀ o ∈ h.origin id, p.At o
  | .process (.fork r _) => ¬ h.Uses r.caller
  | .process (.exit pid _) => ∀ p ∈ h.now.session.find pid, p.ownsProgram = true →
      h.LeftTo (some pid) p.space
  | .process (.execed pid) => ∀ p ∈ h.now.session.find pid, p.previous.isSome = true →
      h.LeftTo none p.leaves
  | .process _ => True

instance (h : ShmHistory) : DecidablePred h.Orderly := fun e => by
  unfold Orderly LeftTo
  split <;> infer_instance

/-! ## The invariant -/

def count (attached : List Attachment) (id : Int) : Nat := attached.countP (·.id == id)

structure Inv (h : ShmHistory) : Prop where
  origins : ∀ id g, h.now.segments.get id = some g →
    ∃ o, h.origin id = some o ∧ g.guestAddress + o.base = o.memory
  fresh : ∀ id o, h.origin id = some o → id < h.now.nextId
  issued : ∀ a ∈ h.attached, a.id < h.now.nextId
  counted : ∀ id g, h.now.segments.get id = some g → g.attachments = count h.attached id
  mapped : ∀ a ∈ h.attached, a.map < h.nextMap
  numbered : ∀ q p, h.now.session.find q = some p → h.mapOf q < h.nextMap
  placed : ∀ q p, h.now.caller q = some p → ∀ a ∈ h.attached, a.map = h.mapOf q →
    ∀ o, h.origin a.id = some o → p.space = o.space

variable {h : ShmHistory} {p : ProcessRecord}

theorem count_eq_zero {attached : List Attachment} {id : Int} :
    count attached id = 0 ↔ ∀ a ∈ attached, a.id ≠ id := by
  simp [count]

theorem caller_iff {m : SharedMemory} {q : Nat} :
    m.caller q = some p ↔ m.session.find q = some p ∧ p.finished = false := by
  simp [caller]

theorem caller_congr {m m' : SharedMemory} (hfind : ∀ q, m'.session.find q = m.session.find q)
    (q : Nat) : m'.caller q = m.caller q := by
  rw [caller, caller, hfind]

theorem lt_nextPid {m : SharedMemory} {q : Nat} (hp : m.caller q = some p) :
    q < m.session.table.nextPid := by
  by_contra hle
  have hnone := m.session.table.fresh q (Nat.le_of_not_lt hle)
  rw [caller_iff] at hp
  cases hnone.symm.trans hp.1

theorem inv_start (s : FathomSession) : (start s).Inv where
  origins id g hg := by cases hg
  fresh id o ho := by cases ho
  issued a ha := absurd ha List.not_mem_nil
  counted id g hg := by cases hg
  mapped a ha := absurd ha List.not_mem_nil
  numbered q p hp := by
    by_contra hle
    exact absurd ((s.table.fresh q (Nat.le_of_not_lt hle)).symm.trans hp) nofun
  placed q p _ a ha := absurd ha List.not_mem_nil

/-! ## Steps of the calls -/

section

variable (hh : h.Inv)
include hh

theorem Inv.trim {d : Option Int} {m : SharedMemory} (hm : h.now.Trims d m)
    {attached : List Attachment} (hsub : attached ⊆ h.attached)
    (hcount : ∀ id, count attached id = count h.attached id - if d = some id then 1 else 0) :
    { h with now := m, attached := attached }.Inv where
  origins id g hg := by
    obtain ⟨old, hold, haddress, -⟩ := hm.get id g hg
    obtain ⟨o, ho, hmemory⟩ := hh.origins id old hold
    exact ⟨o, ho, haddress ▸ hmemory⟩
  fresh id o ho := by
    rw [hm.nextId]
    exact hh.fresh id o ho
  issued a ha := by
    rw [hm.nextId]
    exact hh.issued a (hsub ha)
  counted id g hg := by
    obtain ⟨old, hold, -, hless⟩ := hm.get id g hg
    rw [hcount, ← hh.counted id old hold]
    exact hless
  mapped a ha := hh.mapped a (hsub ha)
  numbered q p hp := hh.numbered q p (by rw [← hm.find]; exact hp)
  placed q p hp a ha hmap := by
    rw [caller_congr hm.find] at hp
    exact hh.placed q p hp a (hsub ha) hmap

theorem Inv.quiet {m : SharedMemory} (hm : h.now.Trims none m) : { h with now := m }.Inv :=
  hh.trim hm (List.Subset.refl _) fun id => by simp

theorem Inv.allocate {m : SharedMemory} {key : Int} {address size : UInt64}
    (hsegments : m.segments = h.now.segments.put h.now.nextId
      ⟨key, p.syscalls.toGuest address, size, 0, false⟩)
    (hnext : m.nextId = h.now.nextId + 1) (hfind : ∀ q, m.session.find q = h.now.session.find q) :
    { h with
      now := m
      origin := update h.origin h.now.nextId
        (some ⟨p.space, p.syscalls.guestBase, address⟩) }.Inv := by
  -- what has an origin or is attached already is not the new segment
  have hold : ∀ {id : Int}, id < h.now.nextId → update h.origin h.now.nextId
      (some ⟨p.space, p.syscalls.guestBase, address⟩) id = h.origin id := fun hlt =>
    update_of_ne (Int.ne_of_lt hlt) _ _
  refine ⟨fun id g hg => ?_, fun id o ho => ?_, fun a ha => ?_, fun id g hg => ?_, hh.mapped,
    fun q p hp => hh.numbered q p (hfind q ▸ hp), fun q p hp a ha hmap o ho => ?_⟩
  · rw [hsegments, Table.get_put] at hg
    split at hg
    next hid =>
      cases hg
      refine ⟨⟨p.space, p.syscalls.guestBase, address⟩, ?_, ?_⟩
      · simp [hid]
      · simp [LinuxSyscalls.toGuest]
    next =>
      obtain ⟨o, ho, hmemory⟩ := hh.origins id g hg
      exact ⟨o, (hold (hh.fresh id o ho)).trans ho, hmemory⟩
  · rw [hnext]
    by_cases hid : id = h.now.nextId
    · omega
    · simp only [update_of_ne hid] at ho
      have hlt := hh.fresh id o ho
      omega
  · have hlt := hh.issued a ha
    rw [hnext]
    omega
  · rw [hsegments, Table.get_put] at hg
    split at hg
    next hid =>
      cases hg
      refine (count_eq_zero.mpr fun a ha heq => ?_).symm
      have hlt := hh.issued a ha
      omega
    next => exact hh.counted id g hg
  · rw [caller_congr hfind] at hp
    simp only [hold (hh.issued a ha)] at ho
    exact hh.placed q p hp a ha hmap o ho

theorem Inv.attach {pid : Nat} {id : Int} {g : SharedSegment} (hp : h.now.caller pid = some p)
    (hget : h.now.segments.get id = some g) (ho : h.Orderly (.shmat pid id)) : { h with
      now := (h.now.doShmat id).after
      attached := h.attached ++ [Attachment.mk (h.mapOf pid) id (h.now.doShmat id).ret] }.Inv := by
  obtain ⟨o, horigin, hmemory⟩ := hh.origins id g hget
  have hshared := (ho p hp o horigin).2
  have hout : (h.now.doShmat id).after = { h.now with
      segments := h.now.segments.put id { g with attachments := g.attachments + 1 } } := by
    simp only [doShmat, hget, answer]
  rw [hout]
  refine ⟨fun x v hv => ?_, hh.fresh, fun a ha => ?_, fun x v hv => ?_, fun a ha => ?_,
    hh.numbered, fun q p' hp' a ha hmap o' ho' => ?_⟩
  · simp only [Table.get_put] at hv
    split at hv
    next hx =>
      cases hv
      exact ⟨o, hx ▸ horigin, hmemory⟩
    next => exact hh.origins x v hv
  · rcases List.mem_append.mp ha with hold | hnew
    · exact hh.issued a hold
    · rw [List.mem_singleton.mp hnew]
      exact hh.fresh id o horigin
  · simp only [Table.get_put] at hv
    simp only [count, List.countP_append, List.countP_singleton, beq_iff_eq]
    split at hv
    next hx =>
      cases hv
      rw [if_pos hx.symm, hx]
      exact congrArg (· + 1) (hh.counted id g hget)
    next hx =>
      rw [if_neg (Ne.symm hx)]
      exact hh.counted x v hv
  · rcases List.mem_append.mp ha with hold | hnew
    · exact hh.mapped a hold
    · rw [List.mem_singleton.mp hnew]
      exact hh.numbered pid p (caller_iff.mp hp).1
  · rcases List.mem_append.mp ha with hold | hnew
    · exact hh.placed q p' hp' a hold hmap o' ho'
    · rw [List.mem_singleton.mp hnew] at hmap ho'
      cases horigin.symm.trans ho'
      exact hshared q (lt_nextPid hp') hmap.symm p' hp'

omit hh in
theorem eraseP_of_find? {α : Type} {f : α → Bool} {l : List α} {a : α}
    (hfound : l.find? f = some a) : ∃ l₁ l₂, l = l₁ ++ a :: l₂ ∧ l.eraseP f = l₁ ++ l₂ := by
  obtain ⟨hthis, l₁, l₂, rfl, hbefore⟩ := List.find?_eq_some_iff_append.mp hfound
  refine ⟨l₁, l₂, rfl, ?_⟩
  rw [List.eraseP_append_right _ fun b hb => by simpa using hbefore b hb,
    List.eraseP_cons_of_pos hthis]

omit hh in
theorem detached_spec {pid : Nat} {address : UInt64} {id : Int}
    (hat : (h.attachedAt pid address).map Attachment.id = some id) :
    h.detached pid address ⊆ h.attached ∧ ∀ x, count h.attached x =
      count (h.detached pid address) x + if some id = some x then 1 else 0 := by
  obtain ⟨a, hfound, rfl⟩ := Option.map_eq_some_iff.mp hat
  obtain ⟨l₁, l₂, hlist, hrest⟩ := eraseP_of_find? hfound
  rw [← detached] at hrest
  refine ⟨List.eraseP_sublist.subset, fun x => ?_⟩
  simp only [hrest, hlist, count, List.countP_append, List.countP_cons, beq_iff_eq,
    Option.some.injEq]
  omega

theorem Inv.detach {pid : Nat} {address : UInt64} {found : Int × SharedSegment}
    (hat : h.now.atAddress address = some found) (hp : h.now.caller pid = some p)
    (ho : h.Orderly (.shmdt pid address)) : { h with
      now := (h.now.doShmdt p address).after
      attached := h.detached pid address }.Inv := by
  obtain ⟨hsub, hcount⟩ := detached_spec (ho p hp found hat).2
  refine hh.trim (trims_doShmdt hat p).2 hsub fun x => ?_
  rw [hcount x, Nat.add_sub_cancel]

end

/-! ## Steps of the session -/

theorem remapped_now (c : Settings) (e : ProcessEvent) : (h.remapped c e).now = h.now ∧
    (h.remapped c e).origin = h.origin := by
  cases e with
  | fork r a =>
    simp only [remapped, forked]
    split
    · exact ⟨rfl, rfl⟩
    · split
      · exact ⟨rfl, rfl⟩
      · exact ⟨rfl, rfl⟩
  | exec _ _ _ _ _ _ =>
    simp only [remapped]
    split
    · exact ⟨rfl, rfl⟩
    · exact ⟨rfl, rfl⟩
  | execed _ | exit _ _ | wait _ _ => exact ⟨rfl, rfl⟩

/-- Processes are given maps, and nothing is attached in those. -/
structure Renumbers (h h' : ShmHistory) (renewed : Nat → Prop) : Prop where
  attached : h'.attached = h.attached
  nextMap : h.nextMap ≤ h'.nextMap
  renews : ∀ q, renewed q → h'.mapOf q < h'.nextMap ∧ ∀ a ∈ h.attached, a.map ≠ h'.mapOf q
  keeps : ∀ q, ¬ renewed q → h'.mapOf q = h.mapOf q

section

variable (hh : h.Inv) (c : Settings) {e : ProcessEvent} (ho : h.Orderly (.process e))
include hh ho

theorem Inv.remapped : h.Renumbers (h.remapped c e) (h.now.session.Renewed c · e) := by
  have hquiet {renewed : Nat → Prop} (hnone : ∀ q, ¬ renewed q) : h.Renumbers h renewed :=
    ⟨rfl, le_rfl, fun q hq => absurd hq (hnone q), fun _ _ => rfl⟩
  have hfresh : ∀ a ∈ h.attached, a.map ≠ h.nextMap := fun a ha => Nat.ne_of_lt (hh.mapped a ha)
  cases e with
  | fork r a =>
    simp only [Renewed, ShmHistory.remapped, forked]
    generalize hchild : (h.now.session.forkProcess c r a).1 = child
    have hnone : h.attached.filter (fun a => a.map == h.mapOf r.caller) = [] := by
      refine List.filter_eq_nil_iff.mpr fun a ha hmap => ho ⟨a, ha, eq_of_beq hmap⟩
    by_cases hneg : child < 0
    · rw [if_pos hneg]
      exact hquiet fun q hq => by omega
    · have hq : ∀ q : Nat, child = q ↔ q = child.toNat := fun q => by omega
      obtain ⟨_, hparent⟩ : ∃ parent, h.now.session.find r.caller = some parent := by
        cases hfind : h.now.session.find r.caller with
        | some parent => exact ⟨parent, rfl⟩
        | none =>
          rw [forkProcess_no_parent _ c r a hfind] at hchild
          exact absurd hchild (by omega)
      rw [if_neg hneg]
      split
      · refine ⟨rfl, le_rfl, fun q hchild => ?_, fun q hother => ?_⟩
        · simp only [(hq q).mp hchild, update_self]
          exact ⟨hh.numbered _ _ hparent, fun a ha hmap => ho ⟨a, ha, hmap⟩⟩
        · exact update_of_ne (mt (hq q).mpr hother) _ _
      · refine ⟨by simp [hnone], Nat.le_succ _, fun q hchild => ?_, fun q hother => ?_⟩
        · simp only [newMap, (hq q).mp hchild, update_self]
          exact ⟨Nat.lt_succ_self _, hfresh⟩
        · exact update_of_ne (mt (hq q).mpr hother) _ _
  | exec _ a k _ r _ =>
    simp only [ShmHistory.remapped]
    split
    next hguard =>
      refine ⟨rfl, Nat.le_succ _, fun q hq => ?_, fun q hother => ?_⟩
      · simp only [newMap, hq.1, update_self]
        exact ⟨Nat.lt_succ_self _, hfresh⟩
      · exact update_of_ne (fun h => hother ⟨h, hguard⟩) _ _
    next hguard => exact hquiet fun q hq => hguard hq.2
  | execed _ | exit _ _ | wait _ _ => exact hquiet fun _ => id

theorem Inv.process : (h.step c (.process e)).Inv := by
  obtain ⟨hattached, hle, hnew, hold⟩ := hh.remapped c ho
  obtain ⟨hnow, horigin⟩ := remapped_now (h := h) c e
  simp only [step]
  refine ⟨?_, ?_, ?_, ?_, ?_, fun q p hp => ?_, fun q p hp a ha hmap => ?_⟩
  · simpa only [hnow, horigin] using hh.origins
  · simpa only [hnow, horigin] using hh.fresh
  · simpa only [hnow, hattached] using hh.issued
  · simpa only [hnow, hattached] using hh.counted
  · rw [hattached]
    exact fun a ha => Nat.lt_of_lt_of_le (hh.mapped a ha) hle
  · by_cases hrenewed : h.now.session.Renewed c q e
    · exact (hnew q hrenewed).1
    · obtain ⟨_, hfind, -⟩ := (h.now.session.step_was c e hp).resolve_right hrenewed
      rw [hold q hrenewed]
      exact Nat.lt_of_lt_of_le (hh.numbered q _ hfind) hle
  · rw [hattached] at ha
    rw [horigin]
    obtain ⟨hfind, hlive⟩ := caller_iff.mp hp
    by_cases hrenewed : h.now.session.Renewed c q e
    · exact absurd hmap ((hnew q hrenewed).2 a ha)
    · obtain ⟨p', hp', hkept⟩ := (h.now.session.step_was c e hfind).resolve_right hrenewed
      rw [hold q hrenewed] at hmap
      rw [← (hkept hlive).2]
      exact hh.placed q p' (caller_iff.mpr ⟨hp', (hkept hlive).1⟩) a ha hmap

end

theorem Inv.step (hh : h.Inv) (c : Settings) {e : ShmEvent} (ho : h.Orderly e) :
    (h.step c e).Inv := by
  cases e with
  | shmget _ key size flags =>
    simp only [ShmHistory.step]
    split
    · exact hh
    next p _ =>
      rcases h.now.doShmget_cases p key size flags with
        ⟨hnone, htrims⟩ | ⟨_, hsome, hsegments, hnext, hfind⟩
      · rw [hnone]
        exact hh.quiet htrims
      · rw [hsome]
        exact hh.allocate hsegments hnext hfind
  | shmat _ id =>
    simp only [ShmHistory.step]
    split
    · exact hh
    next p hp =>
      cases hget : h.now.segments.get id with
      | some g => exact hh.attach hp hget ho
      | none =>
        have hout : (h.now.doShmat id).after = h.now := by
          simp only [doShmat, hget, answer]
        rw [hout]
        exact hh
  | shmdt _ address =>
    simp only [ShmHistory.step]
    split
    · exact hh
    next p hp =>
      cases hat : h.now.atAddress address with
      | some _ =>
        rw [if_pos (trims_doShmdt hat p).1]
        exact hh.detach hat hp ho
      | none =>
        have hout : h.now.doShmdt p address = h.now.answer (failLinux 22) := by
          simp only [doShmdt, hat]
        rw [hout]
        exact hh
  | rmid _ id =>
    rw [ShmHistory.step]
    split
    · exact hh
    next p _ => exact hh.quiet (trims_doShmctlRmid _ p id)
  | process e => exact hh.process c ho

/-! ## What the invariant gives -/

theorem shows_of_at {o : Origin} {address : UInt64} (hmemory : address + o.base = o.memory)
    (hat : p.At o) : p.Shows o address := by
  refine ⟨hat.1, ?_⟩
  rw [LinuxSyscalls.toHost, hat.2, hmemory]

theorem not_hasAttached {id : Int} (hcount : count h.attached id = 0) (q : Nat) :
    ¬ h.HasAttached q id := by
  rintro ⟨-, a, ha, -, hid⟩
  exact count_eq_zero.mp hcount a ha hid

/-- Who has a segment attached runs in its arena, and there it is known as one who does. -/
theorem Inv.home (hh : h.Inv) {q : Nat} {id : Int} {o : Origin} (hhas : h.HasAttached q id)
    (ho : h.origin id = some o) : ∃ p, h.now.caller q = some p ∧ p.space = o.space ∧ h.Uses q := by
  obtain ⟨⟨p, hfind, hlive⟩, a, ha, hmap, rfl⟩ := hhas
  have hp := caller_iff.mpr ⟨hfind, hlive⟩
  exact ⟨p, hp, hh.placed q p hp a ha hmap o ho, a, ha, hmap⟩

theorem Inv.spare (hh : h.Inv) {id : Int} {g : SharedSegment} {x : Stretch} {after : ShmHistory}
    (hget : h.now.segments.get id = some g) (hat : ∀ o ∈ h.origin id, p.At o)
    (hx : x = stretchOf p g) (hcount : count after.attached id = 0) :
    (∃ o, h.origin id = some o ∧ x.space = o.space ∧ x.address = o.memory) ∧
    ∀ q, ¬ after.HasAttached q id := by
  obtain ⟨o, ho, hmemory⟩ := hh.origins id g hget
  rw [hx]
  exact ⟨⟨o, ho, shows_of_at hmemory (hat o ho)⟩, not_hasAttached hcount⟩

section

variable (hh : h.Inv) (c : Settings)
include hh

theorem Inv.sound_shmdt {pid : Nat} {address : UInt64}
    (ho : h.Orderly (.shmdt pid address)) : h.Sound c (.shmdt pid address) := by
  intro p hp id x hreleased
  obtain ⟨g, hat, hle, hx⟩ := doShmdt_released hreleased
  obtain ⟨hplace, hmine⟩ := ho p hp (id, g) hat
  have hget := (atAddress_spec hat).1
  refine hh.spare hget hplace hx ?_
  have hafter : (h.step c (.shmdt pid address)).attached = h.detached pid address := by
    simp only [ShmHistory.step, hp, (trims_doShmdt hat p).1, if_true]
  have hcount := (detached_spec hmine).2 id
  have hcounted := hh.counted id g hget
  rw [if_pos rfl] at hcount
  rw [hafter]
  omega

theorem Inv.spares_exit {pid : Nat} {status : Int}
    (ho : h.Orderly (.process (.exit pid status))) : h.Spares c (.exit pid status) := by
  intro q id o hhas horigin
  simp only [FathomSession.step]
  split
  next hends =>
    obtain ⟨p, hfind, -⟩ := FathomSession.ends_iff.mp hends
    have hq : q ≠ pid ∧ h.HasAttached q id := by
      obtain ⟨⟨p', hp', hlive⟩, hattached⟩ := hhas
      simp only [ShmHistory.step, FathomSession.step, if_pos hends] at hp'
      have hnames := ((FathomSession.finishProcess_spec hfind status).2.1 q p'.space).mp
        ⟨p', hp', hlive, (FathomSession.names_iff p').mpr (.inl rfl)⟩
      obtain ⟨hne, p₀, hp₀, hlive₀, -⟩ := hnames
      exact ⟨hne, ⟨p₀, hp₀, hlive₀⟩, hattached⟩
    obtain ⟨p', hp', hspace, huses⟩ := hh.home hq.2 horigin
    obtain ⟨hfind', hlive'⟩ := caller_iff.mp hp'
    refine FathomSession.finishProcess_spaceAt hfind status hq.1
      ⟨p', hfind', hlive', (FathomSession.names_iff p').mpr (.inl hspace)⟩ fun howns heq => ?_
    exact ho p hfind howns q (lt_nextPid hp') (by simpa using hq.1) p' hp' (hspace.trans heq) huses
  next => rfl

theorem Inv.spares_execed {pid : Nat}
    (ho : h.Orderly (.process (.execed pid))) : h.Spares c (.execed pid) := by
  intro q id o hhas horigin
  have hhas' : h.HasAttached q id := by
    obtain ⟨⟨p', hp', hlive⟩, hattached⟩ := hhas
    obtain ⟨p, hp, hkept⟩ := (h.now.session.step_was c (.execed pid) hp').resolve_right fun h => h
    exact ⟨⟨p, hp, (hkept hlive).1⟩, hattached⟩
  obtain ⟨p', hp', hspace, huses⟩ := hh.home hhas' horigin
  simp only [FathomSession.step]
  split
  next hguard =>
    obtain ⟨p, hfind, -⟩ := FathomSession.live_iff.mp hguard
    refine FathomSession.execed_spaceAt hfind fun hprevious heq => ?_
    exact ho p hfind hprevious q (lt_nextPid hp') (by simp) p' hp' (hspace.trans heq) huses
  next => rfl

theorem Inv.sound {e : ShmEvent} (ho : h.Orderly e) : h.Sound c e := by
  cases e with
  | shmget _ _ _ _ => trivial
  | shmat pid id =>
    intro p g o hp hget horigin
    have hret : (h.now.doShmat id).ret = g.guestAddress := by
      simp only [doShmat, hget]
      rfl
    obtain ⟨o', ho', hmemory⟩ := hh.origins id g hget
    cases horigin.symm.trans ho'
    rw [hret]
    refine ⟨shows_of_at hmemory (ho p hp o horigin).1, fun q p' hp' hhas => ?_⟩
    have hafter : (h.step c (.shmat pid id)).origin = h.origin := by
      simp only [ShmHistory.step, hp]
    obtain ⟨_, hp'', hspace, -⟩ := (hh.step c ho).home hhas (hafter ▸ horigin)
    have hsame : (h.step c (.shmat pid id)).now.caller q = h.now.caller q := by
      simp only [ShmHistory.step, hp, doShmat, hget]
      rfl
    cases (hsame.symm.trans hp'').symm.trans hp'
    exact hspace
  | shmdt _ _ => exact hh.sound_shmdt c ho
  | rmid pid id =>
    intro p hp id' x hreleased
    obtain ⟨g, hget, hunused, rfl, hx⟩ := doShmctlRmid_released hreleased
    refine hh.spare hget (ho p hp g hget hunused) hx ?_
    have hafter : (h.step c (.rmid pid id')).attached = h.attached := by
      simp only [ShmHistory.step, hp]
    rw [hafter, ← hh.counted id' g hget, hunused]
  | process e =>
    cases e with
    | exit _ _ => exact hh.spares_exit c ho
    | execed _ => exact hh.spares_execed c ho
    | fork r a => exact h.now.session.step_keeps_arenas c (by simp)
    | exec _ _ _ _ _ _ => exact h.now.session.step_keeps_arenas c (by simp)
    | wait _ _ => exact h.now.session.step_keeps_arenas c (by simp)

end

end ShmHistory

/-! ## Runs -/

def basedProcess : ProcessRecord :=
  { started true .session [] with
    guestBase := 0x100000000
    syscalls := .new true 0x100000000 }

def copyingFork : ShmEvent :=
  .process (.fork ⟨1, 1, 0, false⟩ { noThread with hostThread := true })

def markedRun : List ShmEvent := [.shmget 1 0 0x1000 kIpcCreat, .shmat 1 1, copyingFork, .rmid 1 1]

end Fathom
