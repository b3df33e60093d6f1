import Fathom.Runtime.Signals
import Fathom.Proofs.Arenas

/-!
# Who is whose child

What a wait answers is decided by three fields of each process, its `kin`: whose child
it is, whether it has finished and with what. Most of what a session does touches none
of them (`SameFamily`), however much it does to arenas, threads and images.
-/

namespace Fathom

open Lib FathomSession ProcessRecord

def ProcessRecord.kin (p : ProcessRecord) : Nat × Bool × Int := (p.ppid, p.finished, p.exitStatus)

namespace FathomSession

variable {s s' : FathomSession} {pid q : Nat}

def family (s : FathomSession) (q : Nat) : Option (Nat × Bool × Int) :=
  (s.find q).map kin

/-! ## What leaves the family alone -/

structure SameFamily (s s' : FathomSession) : Prop where
  family : ∀ q, s'.family q = s.family q
  next : s'.table.nextPid = s.table.nextPid

theorem SameFamily.refl (s : FathomSession) : SameFamily s s := ⟨fun _ => rfl, rfl⟩

theorem SameFamily.trans {s'' : FathomSession} (h : SameFamily s s') (h' : SameFamily s' s'') :
    SameFamily s s'' :=
  ⟨fun q => (h'.family q).trans (h.family q), h'.next.trans h.next⟩

theorem SameFamily.of_table (h : s'.table = s.table) : SameFamily s s' :=
  ⟨fun q => by simp only [FathomSession.family, find, h], by rw [h]⟩

theorem family_modify (htable : s'.table = s.table) (pid : Nat)
    {f : ProcessRecord → ProcessRecord} (hf : ∀ p, (f p).kin = p.kin) :
    SameFamily s (s'.modify pid f) := by
  refine SameFamily.trans (.of_table htable) ⟨fun q => ?_, rfl⟩
  simp only [family, find_modify]
  split
  · rw [Option.map_map]
    exact congrArg (fun g => (s'.find q).map g) (funext hf)
  · rfl

section

variable (s)

theorem family_joinFinishedChildren : SameFamily s s.joinFinishedChildren := by
  refine ⟨fun q => ?_, rfl⟩
  simp only [family, find_joinFinishedChildren, Option.map_map]
  refine congrArg (fun g => (s.find q).map g) (funext fun p => ?_)
  rw [Function.comp_apply, joinMark_eq]
  rfl

theorem family_engineIn (ptr : SpacePtr) (is32bit creates : Bool) :
    SameFamily s (s.engineIn ptr is32bit creates).2 := by
  obtain ⟨_, _, heq⟩ := engineIn_eq s ptr is32bit creates
  rw [heq]
  exact .of_table rfl

theorem family_newArena (is32bit : Bool) (reserved : Option Geometry) (context : Bool) :
    SameFamily s (s.newArena is32bit reserved context).2 := by
  obtain ⟨-, heq⟩ | ⟨-, -, -, htable, -⟩ := newArena_cases s is32bit reserved context
  · rw [heq]
    exact .refl s
  · exact .of_table htable

theorem family_setSpace (ptr : SpacePtr) (space : GuestAddressSpace) (host : Host) :
    SameFamily s (s.setSpace ptr space host) := by
  cases ptr with
  | null => exact .of_table rfl
  | session => exact .of_table rfl
  | own id => exact .of_table rfl

end

theorem family_freeze (pid : Nat) (stops : Nat → Bool) (s : FathomSession) (tid : Nat) :
    SameFamily s (freeze pid stops s tid) := by
  rw [freeze]
  split
  · exact .refl s
  · split
    · apply family_modify
      · rfl
      · exact fun _ => rfl
    · exact .refl s

section

variable (ptr : SpacePtr)

variable (s)

theorem family_freezeOtherThreads (c : Settings) (pid caller : Nat) (force : Bool)
    (stops : Nat → Bool) (creates : Bool) :
    SameFamily s (s.freezeOtherThreads c pid caller force stops creates).2 := by
  rw [freezeOtherThreads]
  split
  · exact .refl s
  · split
    · exact .refl s
    · exact List.foldlRecOn _ _ (family_engineIn s _ _ _)
        fun s₁ h tid _ => h.trans (family_freeze pid stops s₁ tid)

theorem family_thawThreads (pid : Nat) : SameFamily s (s.thawThreads pid) := by
  rw [thawThreads]
  split
  · exact .refl s
  · split
    · exact .refl s
    · apply family_modify
      · rfl
      · exact fun _ => rfl

section

variable (c : Settings) (r : ForkArguments) (a : ForkAnswers) (parent : ProcessRecord)

theorem family_copyParent (childSpace : SpacePtr) :
    SameFamily s (s.copyParent c r a parent childSpace) := by
  have hfrozen : SameFamily s (if c.freezeForCopy
      then (s.freezeOtherThreads c r.caller r.thread true a.stops a.sessionContext).2
      else s) := by
    split
    · exact family_freezeOtherThreads s c _ _ _ _ _
    · exact .refl s
  rw [copyParent]
  split
  · exact hfrozen.trans (family_setSpace _ childSpace _ _)
  · exact hfrozen

theorem family_freezeForBorrow : SameFamily s (s.freezeForBorrow c r a parent) := by
  have hfrozen : SameFamily s (if parent.threads.any GuestThreadRecord.runs
      then (s.freezeOtherThreads c r.caller r.thread false a.stops a.sessionContext).2
      else s) := by
    split
    · exact family_freezeOtherThreads s c _ _ _ _ _
    · exact .refl s
  rw [freezeForBorrow]
  split
  · exact hfrozen.trans (family_thawThreads _ _)
  · exact hfrozen

end

theorem family_releaseProgramIn (program : LoadedProgram) :
    SameFamily s (s.releaseProgramIn ptr program) := by
  rw [releaseProgramIn]
  split
  · exact .refl s
  · exact family_setSpace s ptr _ _

theorem family_releaseParent (pid : Nat) : SameFamily s (s.releaseParent pid) := by
  rw [releaseParent]
  split
  · exact .refl s
  · exact family_thawThreads s _

theorem family_releaseArena (pid : Nat) (ptr : SpacePtr) :
    SameFamily s (s.releaseArena pid ptr) := by
  simp only [releaseArena]
  split
  · split
    · exact .refl s
    · exact .of_table rfl
  · exact .refl s

theorem family_releaseOwnArenas (pid : Nat) : SameFamily s (s.releaseOwnArenas pid) := by
  simp only [releaseOwnArenas]
  split
  · exact .refl s
  next p _ =>
    have hfreed := (family_releaseArena s pid p.space).trans
      (family_releaseArena _ pid p.previousSpace)
    split
    · exact hfreed
    · exact hfreed.trans (family_modify rfl pid fun _ => rfl)

section

variable (c : Settings) (a : ExecAnswers) (pid : Nat) (e : ExecProgram)

theorem family_execInto (is32bit : Bool) (ptr : SpacePtr) (base : UInt64) :
    SameFamily s (s.execInto c a pid e is32bit ptr base).2 := by
  have hengine := family_engineIn s ptr is32bit a.sessionContext
  simp only [execInto]
  split
  · exact hengine
  · split
    · exact hengine
    next space _ =>
      have hloaded := hengine.trans (family_setSpace _ ptr
        (space.loadProgram (s.engineIn ptr is32bit a.sessionContext).2.host base
          (e.request c a)).space
        (space.loadProgram (s.engineIn ptr is32bit a.sessionContext).2.host base
          (e.request c a)).host)
      split
      · exact hloaded
      · exact hloaded.trans (family_modify rfl pid fun _ => rfl)

theorem family_execProgram : SameFamily s (s.execProgram c a pid e).2 := by
  have hstop : SameFamily s (s.stopAndJoinThreadsOf pid) := family_modify rfl pid fun _ => rfl
  simp only [execProgram]
  split
  · exact hstop
  next inspection _ =>
    split
    · have hnew := hstop.trans (family_newArena _ inspection.is32bit a.reserved a.arenaContext)
      split
      · exact hnew
      · exact hnew.trans (family_execInto _ c a pid e _ _ _)
    · exact hstop.trans (family_execInto _ c a pid e _ _ _)

end

end

theorem family_execProcess {c : Settings} {a : ExecAnswers} {k : HostContents} {hops : Nat}
    {r : ExecRequest} {envp : List (List Char)} {out : Option Int × FathomSession}
    (h : s.execProcess c a k hops pid r envp = some out) : SameFamily s out.2 := by
  rw [execProcess] at h
  split at h
  · cases h
    exact .refl s
  · split at h
    · cases h
    · cases h
      exact .refl s
    · cases h
      exact family_execProgram s c a pid _

theorem family_execed (s : FathomSession) (pid : Nat) : SameFamily s (s.execed pid) := by
  have hparent := family_releaseParent s pid
  rw [execed]
  split
  · exact hparent
  · split
    · exact hparent
    next p _ program _ =>
      exact (hparent.trans (family_releaseProgramIn _ _ program)).trans
        (family_modify rfl pid fun _ => rfl)

/-! ## A fork, an exit and a look at the table -/

theorem startChild_family {n : Nat} (hnext : s.table.nextPid = n + 1) (hfresh : s.family n = none)
    (child : ProcessRecord) (started : Bool) :
    let out := s.startChild n child started
    (out.1 < 0 ∧ (∀ q, out.2.family q = s.family q) ∧ n ≤ out.2.table.nextPid) ∨
      (out.1 = n ∧ (∀ q, out.2.family q = if q = n then some child.kin else s.family q) ∧
        out.2.table.nextPid = n + 1) := by
  rw [startChild]
  split
  · refine .inr ⟨rfl, fun q => ?_, ?_⟩
    · simp only [family, find_modify]
      simp only [find, ProcessTable.insert]
      by_cases hq : q = n
      · simp [hq, kin]
      · simp only [if_neg hq]
    · simp [modify, ProcessTable.modify, ProcessTable.insert, hnext]
  · refine .inl ⟨by simp, fun q => ?_, ?_⟩
    · simp only [family, find, ProcessTable.erase, ProcessTable.insert]
      by_cases hq : q = n
      · rw [if_pos hq, hq]
        exact hfresh.symm
      · simp only [if_neg hq]
    · simp only [ProcessTable.insert, hnext, max_self]
      exact Nat.le_succ _

theorem forkProcess_family (s : FathomSession) (c : Settings) (r : ForkArguments)
    (a : ForkAnswers) :
    ((s.forkProcess c r a).1 < 0 ∧ (∀ q, (s.forkProcess c r a).2.family q = s.family q) ∧
        s.table.nextPid ≤ (s.forkProcess c r a).2.table.nextPid) ∨
      ((s.forkProcess c r a).1 = s.table.nextPid ∧ (∀ q, (s.forkProcess c r a).2.family q =
          if q = s.table.nextPid then some (r.caller, false, 0) else s.family q) ∧
        (s.forkProcess c r a).2.table.nextPid = s.table.nextPid + 1) := by
  have hjoin := family_joinFinishedChildren s
  have hfresh : s.family s.table.nextPid = none := by
    rw [family, show s.find s.table.nextPid = none from
      s.table.fresh _ le_rfl, Option.map_none]
  have hbegun : ∀ q, s.begun.family q = s.family q := hjoin.family
  simp only [forkProcess]
  split
  · exact .inl ⟨by simp, hjoin.family, hjoin.next.ge⟩
  next parent _ =>
    have hmade : SameFamily s.begun (if r.copies c then
          s.begun.newArena parent.is32bit a.reserved a.arenaContext
        else (parent.space, s.begun)).2 := by
      split
      · exact family_newArena _ _ _ _
      · exact .refl _
    rw [begun] at hmade hbegun
    generalize (if r.copies c then newArena _ parent.is32bit a.reserved a.arenaContext
      else (parent.space, _)) = made at hmade ⊢
    obtain ⟨childSpace, s₁⟩ := made
    split
    · exact .inl ⟨by simp, fun q => (hmade.family q).trans (hbegun q),
        by rw [hmade.next]; exact Nat.le_succ _⟩
    · have hcopied : SameFamily s₁ (if r.copies c then s₁.copyParent c r a parent childSpace
          else s₁) := by
        split
        · exact family_copyParent s₁ c r a parent childSpace
        · exact .refl _
      have hsofar := hmade.trans hcopied
      generalize (if r.copies c then s₁.copyParent c r a parent childSpace else s₁) = s₂ at hsofar ⊢
      have hengine := hsofar.trans (family_engineIn s₂ childSpace parent.is32bit a.sessionContext)
      generalize s₂.engineIn childSpace parent.is32bit a.sessionContext = engine at hengine ⊢
      split
      · exact .inl ⟨by simp, fun q => (hengine.family q).trans (hbegun q),
          by rw [hengine.next]; exact Nat.le_succ _⟩
      · have hheld : SameFamily engine.2 (if r.copies c || r.ownStack then engine.2
            else engine.2.freezeForBorrow c r a parent) := by
          split
          · exact .refl _
          · exact family_freezeForBorrow _ c r a parent
        have hready := hengine.trans hheld
        generalize (if r.copies c || r.ownStack then engine.2
          else engine.2.freezeForBorrow c r a parent) = s₃ at hready ⊢
        have hnext : s₃.table.nextPid = s.table.nextPid + 1 := hready.next
        have hfamily : ∀ q, s₃.family q = s.family q := fun q => (hready.family q).trans (hbegun q)
        simp only [← hfamily] at hfresh ⊢
        exact startChild_family hnext hfresh _ _

theorem family_finished (h : SameFamily s s') (pid : Nat) (status : Int) :
    (∀ q, ((s'.modify pid fun p => { p with finished := true, exitStatus := status }
        ).releaseOwnArenas pid).family q =
          if q = pid then (s.family q).map fun k => (k.1, true, status) else s.family q) ∧
      ((s'.modify pid fun p => { p with finished := true, exitStatus := status }
        ).releaseOwnArenas pid).table.nextPid = s.table.nextPid := by
  have hafter := family_releaseOwnArenas
    (s'.modify pid fun p => { p with finished := true, exitStatus := status }) pid
  refine ⟨fun q => ?_, hafter.next.trans h.next⟩
  rw [hafter.family q, ← h.family q]
  simp only [family, find_modify]
  split
  · rw [Option.map_map, Option.map_map]
    rfl
  · rfl

theorem finishProcess_family (s : FathomSession) (pid : Nat) (status : Int) :
    (∀ q, (s.finishProcess pid status).family q =
        if q = pid then (s.family q).map fun k => (k.1, true, status) else s.family q) ∧
      (s.finishProcess pid status).table.nextPid = s.table.nextPid := by
  have hstop : SameFamily s (s.stopAndJoinThreadsOf pid) := family_modify rfl pid fun _ => rfl
  have hstopped := hstop.trans (family_releaseParent _ pid)
  rw [finishProcess]
  split
  · exact family_finished hstopped pid status
  · split
    · exact family_finished (hstopped.trans (family_releaseProgramIn _ _ _)) pid status
    · exact family_finished hstopped pid status

def Wanted (wantedPid : Int) (q : Nat) : Prop := 0 < wantedPid → (q : Int) = wantedPid

theorem waitForChild_looks (s : FathomSession) (callerPid : Nat) (wantedPid : Int) :
    (∃ q status, s.family q = some (callerPid, true, status) ∧ Wanted wantedPid q ∧
        s.waitForChild callerPid wantedPid = ((q : Int), { s with table := s.table.erase q })) ∨
      ((∀ q status, s.family q = some (callerPid, true, status) → ¬ Wanted wantedPid q) ∧
        (∃ q done status, s.family q = some (callerPid, done, status) ∧ Wanted wantedPid q) ∧
        s.waitForChild callerPid wantedPid = (0, s)) ∨
      ((∀ q done status, s.family q = some (callerPid, done, status) → ¬ Wanted wantedPid q) ∧
        s.waitForChild callerPid wantedPid = (-10, s)) := by
  have hwanted : ∀ q : Nat, (decide (wantedPid ≤ 0) || decide (q = wantedPid)) = true ↔
      Wanted wantedPid q := by
    simp only [Bool.or_eq_true, decide_eq_true_eq, Wanted]
    omega
  have hlisted : ∀ q p, s.find q = some p → q ∈ List.range s.table.nextPid := by
    intro q p hp
    rw [List.mem_range]
    by_contra hge
    rw [find, s.table.fresh q (Nat.le_of_not_lt hge)] at hp
    cases hp
  have hfind : ∀ q done status, s.family q = some (callerPid, done, status) →
      ∃ p, s.find q = some p ∧ p.ppid = callerPid ∧ p.finished = done := by
    intro q done status hq
    obtain ⟨p, hp, hkin⟩ := Option.map_eq_some_iff.mp hq
    simp only [kin, Prod.mk.injEq] at hkin
    exact ⟨p, hp, hkin.1, hkin.2.1⟩
  rw [waitForChild]
  split
  next q hq =>
    have hdone := List.find?_some hq
    simp only [Bool.and_eq_true, Option.any_eq_true, beq_iff_eq] at hdone
    obtain ⟨⟨p, hp, hppid, hmatch⟩, p', hp', hfinished⟩ := hdone
    rw [hp, Option.some.injEq] at hp'
    subst hp'
    refine .inl ⟨q, p.exitStatus, ?_, (hwanted q).mp hmatch, rfl⟩
    simp [family, hp, kin, hppid, hfinished]
  next hnone =>
    have hunfinished : ∀ q status, s.family q = some (callerPid, true, status) →
        ¬ Wanted wantedPid q := by
      intro q status hq hmatch
      obtain ⟨p, hp, hppid, hfinished⟩ := hfind q true status hq
      have hno := List.find?_eq_none.mp hnone q (hlisted q p hp)
      simp only [hp, Option.any_some, hppid, hfinished, beq_self_eq_true, Bool.and_true] at hno
      exact hno ((hwanted q).mpr hmatch)
    split
    next hany =>
      obtain ⟨q, -, hchild⟩ := List.any_eq_true.mp hany
      simp only [Option.any_eq_true, Bool.and_eq_true, beq_iff_eq] at hchild
      obtain ⟨p, hp, hppid, hmatch⟩ := hchild
      refine .inr (.inl ⟨hunfinished, ⟨q, p.finished, p.exitStatus, ?_,
        (hwanted q).mp hmatch⟩, rfl⟩)
      simp [family, hp, kin, hppid]
    next hnobody =>
      refine .inr (.inr ⟨fun q done status hq hmatch => hnobody ?_, rfl⟩)
      obtain ⟨p, hp, hppid, -⟩ := hfind q done status hq
      refine List.any_eq_true.mpr ⟨q, hlisted q p hp, ?_⟩
      simp only [hp, Option.any_some, hppid, beq_self_eq_true]
      exact (hwanted q).mpr hmatch

end FathomSession

/-! ## The ledger: every child is reaped once -/

open Lib FathomSession

structure Report where
  caller : Nat
  child : Nat
  status : Option Int

structure KinLedger where
  /-- The parent a fork made a process for. -/
  born : Nat → Option Nat
  /-- What a process finished with, once it has. -/
  ended : Nat → Option Int
  reports : List Report

namespace KinLedger

variable (l : KinLedger)

def blank : KinLedger := ⟨fun _ => none, fun _ => none, []⟩

def reported : List Nat := l.reports.map Report.child

def bear (child parent : Nat) : KinLedger :=
  { l with born := fun q => if q = child then some parent else l.born q }

def finish (pid : Nat) (status : Int) : KinLedger :=
  { l with ended := fun q => if q = pid then some status else l.ended q }

def report (r : Report) : KinLedger := { l with reports := l.reports ++ [r] }

def Unreaped (callerPid : Nat) (wantedPid : Int) (q : Nat) : Prop :=
  l.born q = some callerPid ∧ Wanted wantedPid q ∧ q ∉ l.reported

end KinLedger

open KinLedger

structure Chronicle where
  session : FathomSession
  ledger : KinLedger

def ProcessEvent.actor : ProcessEvent → Nat
  | fork r _ => r.caller
  | exec pid _ _ _ _ _ => pid
  | execed pid => pid
  | exit pid _ => pid
  | wait callerPid _ => callerPid

namespace Chronicle

def live (ch : Chronicle) (pid : Nat) : Bool := (ch.session.find pid).any (!·.finished)

def reap (ch : Chronicle) (callerPid : Nat) (answer : Option WaitAnswer) : KinLedger :=
  match answer with
  | none => ch.ledger
  | some answer =>
    if answer.ret > 0 then ch.ledger.report ⟨callerPid, answer.ret.toNat, answer.exitStatus⟩
    else ch.ledger

def advance (c : Settings) (ch : Chronicle) (e : ProcessEvent × UInt32) : Chronicle :=
  if ch.live e.1.actor then
    match e.1 with
    | .fork r a =>
      let out := ch.session.forkProcess c r a
      ⟨out.2, if out.1 > 0 then ch.ledger.bear out.1.toNat r.caller else ch.ledger⟩
    | .exit pid status =>
      if (ch.session.find pid).any threadStarted
        then ⟨ch.session.finishProcess pid status, ch.ledger.finish pid status⟩ else ch
    | .wait callerPid wantedPid =>
      let out := ch.session.waitFor callerPid wantedPid e.2
      ⟨out.2, ch.reap callerPid out.1⟩
    | other => ⟨ch.session.step c other, ch.ledger⟩
  else ch

def run (c : Settings) (ch : Chronicle) (events : List (ProcessEvent × UInt32)) : Chronicle :=
  events.foldl (advance c) ch

end Chronicle

/-! ## What the table and the ledger agree on -/

structure Kept (kin : Nat → Option (Nat × Bool × Int)) (next : Nat) (l : KinLedger) : Prop where
  /-- The first process is nobody's child. -/
  first : ∀ k, kin 1 = some k → k.1 = 0
  entered : ∀ q k, q ≠ 1 → kin q = some k → l.born q = some k.1 ∧ q ∉ l.reported ∧
    l.ended q = if k.2.1 then some k.2.2 else none
  remains : ∀ q parent, l.born q = some parent → q ∉ l.reported → ∃ k, kin q = some k
  numbered : ∀ q parent, l.born q = some parent → 2 ≤ q ∧ q < next
  finished : ∀ q status, l.ended q = some status → q < next
  reported : ∀ r ∈ l.reports, l.born r.child = some r.caller ∧ l.ended r.child = r.status ∧
    r.status.isSome = true
  once : l.reported.Nodup

namespace Kept

variable {kin : Nat → Option (Nat × Bool × Int)} {next : Nat} {l : KinLedger}

section

variable (h : Kept kin next l)
include h

theorem later {next' : Nat} (hnext : next ≤ next') : Kept kin next' l :=
  { h with
    numbered := fun q parent hq => (h.numbered q parent hq).imp_right fun hlt => hlt.trans_le hnext
    finished := fun q status hq => (h.finished q status hq).trans_le hnext }

theorem born_of_reported {q : Nat} (hq : q ∈ l.reported) : ∃ parent, l.born q = some parent := by
  obtain ⟨r, hr, rfl⟩ := List.mem_map.mp hq
  exact ⟨r.caller, (h.reported r hr).1⟩

theorem fresh : l.born next = none ∧ l.ended next = none ∧ next ∉ l.reported := by
  have hborn : l.born next = none := by
    by_contra hsome
    obtain ⟨parent, hparent⟩ := Option.ne_none_iff_exists'.mp hsome
    exact Nat.lt_irrefl _ (h.numbered next parent hparent).2
  refine ⟨hborn, ?_, fun hmem => ?_⟩
  · by_contra hsome
    obtain ⟨status, hstatus⟩ := Option.ne_none_iff_exists'.mp hsome
    exact Nat.lt_irrefl _ (h.finished next status hstatus)
  · obtain ⟨_, hparent⟩ := h.born_of_reported hmem
    rw [hborn] at hparent
    cases hparent

theorem bear (hnext : 2 ≤ next) (parent : Nat) :
    Kept (fun q => if q = next then some (parent, false, 0) else kin q) (next + 1)
      (l.bear next parent) where
  first k hk := by
    rw [if_neg (by omega)] at hk
    exact h.first k hk
  entered q k hq hk := by
    by_cases hnew : q = next
    · subst hnew
      rw [if_pos rfl, Option.some.injEq] at hk
      subst hk
      exact ⟨if_pos rfl, h.fresh.2.2, h.fresh.2.1⟩
    · rw [if_neg hnew] at hk
      obtain ⟨hborn, hrest⟩ := h.entered q k hq hk
      exact ⟨(if_neg hnew).trans hborn, hrest⟩
  remains q other hborn hunreported := by
    by_cases hnew : q = next
    · exact ⟨_, if_pos hnew⟩
    · simp only [KinLedger.bear, if_neg hnew] at hborn
      rw [if_neg hnew]
      exact h.remains q other hborn hunreported
  numbered q other hborn := by
    by_cases hnew : q = next
    · omega
    · simp only [KinLedger.bear, if_neg hnew] at hborn
      have hold := h.numbered q other hborn
      omega
  finished q status hq := (h.finished q status hq).trans (Nat.lt_succ_self _)
  reported r hr := by
    obtain ⟨hborn, hrest⟩ := h.reported r hr
    have hold := (h.numbered r.child r.caller hborn).2
    exact ⟨(if_neg (Nat.ne_of_lt hold)).trans hborn, hrest⟩
  once := h.once

theorem finish {pid : Nat} {k : Nat × Bool × Int} (hk : kin pid = some k) (hpid : pid < next)
    (status : Int) :
    Kept (fun q => if q = pid then (kin q).map fun k => (k.1, true, status) else kin q) next
      (l.finish pid status) where
  first k' hk' := by
    by_cases hone : 1 = pid
    · subst hone
      rw [if_pos rfl, hk, Option.map_some, Option.some.injEq] at hk'
      subst hk'
      exact h.first k hk
    · rw [if_neg hone] at hk'
      exact h.first k' hk'
  entered q k' hq hk' := by
    by_cases hself : q = pid
    · subst hself
      rw [if_pos rfl, hk, Option.map_some, Option.some.injEq] at hk'
      subst hk'
      obtain ⟨hborn, hunreported, -⟩ := h.entered q k hq hk
      exact ⟨hborn, hunreported, if_pos rfl⟩
    · rw [if_neg hself] at hk'
      obtain ⟨hborn, hunreported, hended⟩ := h.entered q k' hq hk'
      exact ⟨hborn, hunreported, (if_neg hself).trans hended⟩
  remains q parent hborn hunreported := by
    obtain ⟨k', hk'⟩ := h.remains q parent hborn hunreported
    split
    · exact ⟨_, by rw [hk', Option.map_some]⟩
    · exact ⟨k', hk'⟩
  numbered := h.numbered
  finished q status' hq := by
    by_cases hself : q = pid
    · exact hself ▸ hpid
    · simp only [KinLedger.finish, if_neg hself] at hq
      exact h.finished q status' hq
  reported r hr := by
    obtain ⟨hborn, hended, hsome⟩ := h.reported r hr
    -- what has been reported is out of the table, and is not what finishes now
    have hother : r.child ≠ pid := by
      intro hself
      have hnotfirst : pid ≠ 1 := by
        have hnumber := (h.numbered r.child r.caller hborn).1
        omega
      exact (h.entered pid k hnotfirst hk).2.1 (hself ▸ List.mem_map_of_mem hr)
    exact ⟨hborn, (if_neg hother).trans hended, hsome⟩
  once := h.once

theorem reap {q caller : Nat} {status : Int} (hq : q ≠ 1)
    (hkin : kin q = some (caller, true, status)) :
    Kept (fun x => if x = q then none else kin x) next (l.report ⟨caller, q, some status⟩) where
  first k hk := by
    rw [if_neg (Ne.symm hq)] at hk
    exact h.first k hk
  entered x k hx hk := by
    by_cases hself : x = q
    · rw [if_pos hself] at hk
      cases hk
    · rw [if_neg hself] at hk
      obtain ⟨hborn, hunreported, hended⟩ := h.entered x k hx hk
      refine ⟨hborn, ?_, hended⟩
      simp only [KinLedger.reported, KinLedger.report, List.map_append, List.map_singleton,
        List.mem_append, List.mem_singleton, not_or]
      exact ⟨hunreported, hself⟩
  remains x parent hborn hunreported := by
    simp only [KinLedger.reported, KinLedger.report, List.map_append, List.map_singleton,
      List.mem_append, List.mem_singleton, not_or] at hunreported
    rw [if_neg hunreported.2]
    exact h.remains x parent hborn hunreported.1
  numbered := h.numbered
  finished := h.finished
  reported r hr := by
    rcases List.mem_append.mp hr with hold | hnew
    · exact h.reported r hold
    · rw [List.mem_singleton.mp hnew]
      obtain ⟨hborn, -, hended⟩ := h.entered q _ hq hkin
      exact ⟨hborn, hended, rfl⟩
  once := by
    obtain ⟨-, hunreported, -⟩ := h.entered q _ hq hkin
    simp only [KinLedger.reported, KinLedger.report, List.map_append, List.map_singleton]
    refine List.nodup_append.mpr ⟨h.once, List.nodup_singleton q, fun x hx y hy heq => ?_⟩
    rw [List.mem_singleton.mp hy] at heq
    exact hunreported (heq ▸ hx)

end

end Kept

/-! ## Runs -/

namespace Chronicle

variable {caller : Nat} {c : Settings} {ch : Chronicle}

theorem find_of_live {pid : Nat} (h : ch.live pid = true) : ∃ p, ch.session.find pid = some p := by
  obtain ⟨p, hp, -⟩ := (Option.any_eq_true _ _).mp h
  exact ⟨p, hp⟩

def WellKept (ch : Chronicle) : Prop :=
  2 ≤ ch.session.table.nextPid ∧ Kept ch.session.family ch.session.table.nextPid ch.ledger

section

variable (h : ch.WellKept)
include h

theorem WellKept.of_sameFamily {s : FathomSession} (hs : SameFamily ch.session s) :
    WellKept ⟨s, ch.ledger⟩ := by
  simp only [WellKept, hs.next, funext hs.family]
  exact h

theorem fork_wellKept (r : ForkArguments) (a : ForkAnswers) :
    WellKept ⟨(ch.session.forkProcess c r a).2, if (ch.session.forkProcess c r a).1 > 0
      then ch.ledger.bear (ch.session.forkProcess c r a).1.toNat r.caller else ch.ledger⟩ := by
  obtain ⟨hnumber, hkept⟩ := h
  obtain ⟨hfailed, hfamily, hnext⟩ | ⟨hpid, hfamily, hnext⟩ := forkProcess_family ch.session c r a
  · rw [if_neg (by omega)]
    simp only [WellKept, funext hfamily]
    exact ⟨hnumber.trans hnext, hkept.later hnext⟩
  · rw [if_pos (by omega), hpid]
    simp only [WellKept, funext hfamily, hnext]
    exact ⟨by omega, hkept.bear hnumber r.caller⟩

theorem exit_wellKept {pid : Nat} (hlive : ch.live pid = true) (status : Int) :
    WellKept ⟨ch.session.finishProcess pid status, ch.ledger.finish pid status⟩ := by
  obtain ⟨hnumber, hkept⟩ := h
  obtain ⟨p, hp⟩ := find_of_live hlive
  have hkin : ch.session.family pid = some p.kin := by
    rw [family, hp, Option.map_some]
  have hpid : pid < ch.session.table.nextPid := by
    by_contra hge
    rw [find, ch.session.table.fresh pid (Nat.le_of_not_lt hge)] at hp
    cases hp
  obtain ⟨hfamily, hnext⟩ := finishProcess_family ch.session pid status
  simp only [WellKept, funext hfamily, hnext]
  exact ⟨hnumber, hkept.finish hkin hpid status⟩

theorem caller_ne_zero {pid : Nat} (hlive : ch.live pid = true) : pid ≠ 0 := by
  rintro rfl
  obtain ⟨p, hp⟩ := find_of_live hlive
  have hkin : ch.session.family 0 = some p.kin := by rw [family, hp, Option.map_some]
  have hborn := (h.2.entered 0 p.kin (by omega) hkin).1
  have hnumber := (h.2.numbered 0 _ hborn).1
  omega

section

variable (hcaller : ch.live caller = true)
include hcaller

theorem child_ne_one {q : Nat} {done : Bool} {status : Int}
    (hq : ch.session.family q = some (caller, done, status)) : q ≠ 1 := by
  rintro rfl
  exact caller_ne_zero h hcaller (h.2.first _ hq)

theorem unreaped_iff (wanted : Int) (q : Nat) : ch.ledger.Unreaped caller wanted q ↔
      ∃ done status, ch.session.family q = some (caller, done, status) ∧ Wanted wanted q := by
  constructor
  · rintro ⟨hborn, hwanted, hunreported⟩
    obtain ⟨⟨_, done, status⟩, hkin⟩ := h.2.remains q caller hborn hunreported
    have hnumber := (h.2.numbered q caller hborn).1
    have hentered := (h.2.entered q _ (by omega) hkin).1
    rw [hborn, Option.some.injEq] at hentered
    subst hentered
    exact ⟨done, status, hkin, hwanted⟩
  · rintro ⟨_, _, hkin, hwanted⟩
    obtain ⟨hborn, hunreported, -⟩ := h.2.entered q _ (child_ne_one h hcaller hkin) hkin
    exact ⟨hborn, hwanted, hunreported⟩

theorem ended_eq {q : Nat} {done : Bool} {status : Int}
    (hq : ch.session.family q = some (caller, done, status)) :
    ch.ledger.ended q = if done then some status else none :=
  (h.2.entered q _ (child_ne_one h hcaller hq) hq).2.2

theorem waitFor_turns (wanted : Int) (options : UInt32) :
    (∃ q status, ch.ledger.Unreaped caller wanted q ∧ ch.ledger.ended q = some status ∧
        ch.session.family q = some (caller, true, status) ∧ 0 < q ∧
        ch.session.waitFor caller wanted options =
          (some ⟨q, some status⟩, { ch.session with table := ch.session.table.erase q })) ∨
      ((∃ q, ch.ledger.Unreaped caller wanted q) ∧
        (∀ q, ch.ledger.Unreaped caller wanted q → ch.ledger.ended q = none) ∧
        ch.session.waitFor caller wanted options =
          (if options &&& kWNoHang ≠ 0 then some ⟨0, none⟩ else none, ch.session)) ∨
      ((∀ q, ¬ ch.ledger.Unreaped caller wanted q) ∧
        ch.session.waitFor caller wanted options = (some ⟨-10, none⟩, ch.session)) := by
  obtain ⟨q, status, hq, hwanted, hlook⟩ | ⟨hnone, ⟨q, done, status, hq, hwanted⟩, hlook⟩ |
    ⟨hnobody, hlook⟩ := waitForChild_looks ch.session caller wanted
  · refine .inl ⟨q, status, (unreaped_iff h hcaller wanted q).mpr ⟨true, status, hq, hwanted⟩,
      ended_eq h hcaller hq, hq, ?_⟩
    have hborn := (h.2.entered q _ (child_ne_one h hcaller hq) hq).1
    have hpos : 0 < q := by
      have hnumber := (h.2.numbered q _ hborn).1
      omega
    obtain ⟨p, hp, hkin⟩ := Option.map_eq_some_iff.mp hq
    simp only [kin, Prod.mk.injEq] at hkin
    refine ⟨hpos, ?_⟩
    simp only [waitFor, hlook, Int.toNat_natCast, hp, Option.map_some, hkin.2.2]
    rw [if_pos (by omega)]
  · refine .inr (.inl ⟨⟨q, (unreaped_iff h hcaller wanted q).mpr ⟨done, status, hq, hwanted⟩⟩,
      fun x hx => ?_, ?_⟩)
    · obtain ⟨done', status', hkin, hmatch⟩ := (unreaped_iff h hcaller wanted x).mp hx
      cases done' with
      | false => exact ended_eq h hcaller hkin
      | true => exact absurd hmatch (hnone x status' hkin)
    · simp only [waitFor, hlook, lt_irrefl, if_false]
      split
      · rfl
      · rfl
  · refine .inr (.inr ⟨fun x hx => ?_, ?_⟩)
    · obtain ⟨done, status, hkin, hmatch⟩ := (unreaped_iff h hcaller wanted x).mp hx
      exact hnobody x done status hkin hmatch
    · simp [waitFor, hlook]

theorem wait_wellKept (wanted : Int) (options : UInt32) :
    WellKept ⟨(ch.session.waitFor caller wanted options).2,
      ch.reap caller (ch.session.waitFor caller wanted options).1⟩ := by
  obtain ⟨q, _, -, -, hkin, hpos, hturn⟩ | ⟨-, -, hturn⟩ | ⟨-, hturn⟩ :=
    waitFor_turns h hcaller wanted options
  · rw [hturn]
    simp only [reap]
    rw [if_pos (by omega)]
    refine ⟨h.1, ?_⟩
    have hfamily : ∀ x, family
        { ch.session with table := ch.session.table.erase q } x =
          if x = q then none else ch.session.family x := by
      intro x
      simp only [family, find, ProcessTable.erase]
      split
      · rfl
      · rfl
    rw [funext hfamily]
    exact h.2.reap (child_ne_one h hcaller hkin) hkin
  · rw [hturn]
    by_cases hnohang : options &&& kWNoHang ≠ 0
    · rw [if_pos hnohang]
      exact h
    · rw [if_neg hnohang]
      exact h
  · rw [hturn]
    exact h

end

theorem advance_wellKept (e : ProcessEvent × UInt32) : (ch.advance c e).WellKept := by
  obtain ⟨e, options⟩ := e
  rw [advance]
  split
  next hlive =>
    cases e with
    | fork r a => exact fork_wellKept h r a
    | exec _ a k _ r _ =>
      refine h.of_sameFamily ?_
      rw [step]
      split
      · split
        · exact .refl _
        next out hout => exact family_execProcess hout
      · exact .refl _
    | execed pid =>
      refine h.of_sameFamily ?_
      rw [step]
      split
      · exact family_execed _ pid
      · exact .refl _
    | exit _ status =>
      simp only
      split
      · exact exit_wellKept h hlive status
      · exact h
    | wait _ wantedPid => exact wait_wellKept h hlive wantedPid options
  · exact h

theorem run_wellKept (events : List (ProcessEvent × UInt32)) : (ch.run c events).WellKept :=
  List.foldlRecOn events (advance c) h fun _ hkept e _ => advance_wellKept hkept e

end

end Chronicle

/-- A session as it is opened: its first process, and no other. -/
structure Opened (s : FathomSession) : Prop where
  next : s.table.nextPid = 2
  alone : s.find 0 = none
  first : ∀ p, s.find 1 = some p → p.ppid = 0

theorem Opened.wellKept {s : FathomSession} (h : Opened s) : Chronicle.WellKept ⟨s, .blank⟩ where
  left := h.next.ge
  right :=
    { first := by
        intro k hk
        obtain ⟨p, hp, rfl⟩ := Option.map_eq_some_iff.mp hk
        exact h.first p hp
      entered := by
        intro q k hq hk
        obtain ⟨p, hp, -⟩ := Option.map_eq_some_iff.mp hk
        -- the table has no number besides 0 and 1
        by_cases hzero : q = 0
        · rw [hzero, h.alone] at hp
          cases hp
        · rw [find, s.table.fresh q (by rw [h.next]; omega)] at hp
          cases hp
      remains := by simp [blank]
      numbered := by simp [blank]
      finished := by simp [blank]
      reported := by simp [blank]
      once := by simp [blank, reported] }

/-- In every run, whoever waits when: no child is reported twice, each only to the
process that forked it, and with the status it had finished with by then. There
are no children exactly if every child the request is for has been reported, and
there is none yet exactly if some are left and none of those has finished. -/
theorem children_reaped_once {s : FathomSession} (hs : Opened s) (c : Settings)
    (events : List (ProcessEvent × UInt32)) :
    let ch := Chronicle.run c ⟨s, .blank⟩ events
    ch.ledger.reported.Nodup ∧
      (∀ r ∈ ch.ledger.reports, ch.ledger.born r.child = some r.caller ∧
        ∃ status, ch.ledger.ended r.child = some status ∧ r.status = some status) ∧
      ∀ caller wanted options, ch.live caller = true →
        let answer := (ch.session.waitFor caller wanted options).1
        (∀ child status, 0 < child → answer = some ⟨child, status⟩ →
          ∃ q : Nat, child = q ∧ ch.ledger.Unreaped caller wanted q ∧
            ∃ code, ch.ledger.ended q = some code ∧ status = some code) ∧
        ((∃ status, answer = some ⟨-10, status⟩) ↔ ∀ q, ¬ ch.ledger.Unreaped caller wanted q) ∧
        (options &&& kWNoHang ≠ 0 → ((∃ status, answer = some ⟨0, status⟩) ↔
          (∃ q, ch.ledger.Unreaped caller wanted q) ∧
            ∀ q, ch.ledger.Unreaped caller wanted q → ch.ledger.ended q = none)) := by
  intro ch
  have hkept : ch.WellKept := Chronicle.run_wellKept hs.wellKept events
  refine ⟨hkept.2.once, fun r hr => ?_, fun caller wanted options hcaller => ?_⟩
  · obtain ⟨hborn, hended, hsome⟩ := hkept.2.reported r hr
    obtain ⟨status, hstatus⟩ := Option.isSome_iff_exists.mp hsome
    exact ⟨hborn, status, hended.trans hstatus, hstatus⟩
  · obtain ⟨q, status, hq, hended, -, hpos, hturn⟩ | ⟨hsome, hnone, hturn⟩ | ⟨hnobody, hturn⟩ :=
      Chronicle.waitFor_turns hkept hcaller wanted options
    · simp only [hturn, Option.some.injEq, WaitAnswer.mk.injEq]
      refine ⟨?_, ?_, ?_⟩
      · rintro _ _ - ⟨rfl, rfl⟩
        exact ⟨q, rfl, hq, status, hended, rfl⟩
      · refine ⟨fun ⟨_, hneg, _⟩ => ?_, fun h => absurd hq (h q)⟩
        omega
      · refine fun _ => ⟨fun ⟨_, hzero, _⟩ => ?_, fun h => ?_⟩
        · omega
        · rw [h.2 q hq] at hended
          cases hended
    · rw [hturn]
      refine ⟨?_, ?_, ?_⟩
      · intro child status hpos heq
        split at heq
        · simp only [Option.some.injEq, WaitAnswer.mk.injEq] at heq
          omega
        · cases heq
      · refine ⟨fun ⟨_, heq⟩ => ?_, fun h => ?_⟩
        · split at heq
          · simp only [Option.some.injEq, WaitAnswer.mk.injEq] at heq
            omega
          · cases heq
        · obtain ⟨q, hq⟩ := hsome
          exact absurd hq (h q)
      · intro hnohang
        rw [if_pos hnohang]
        exact ⟨fun _ => ⟨hsome, hnone⟩, fun _ => ⟨none, rfl⟩⟩
    · simp only [hturn, Option.some.injEq, WaitAnswer.mk.injEq]
      refine ⟨?_, ?_, ?_⟩
      · omega
      · exact ⟨fun _ => hnobody, fun _ => ⟨none, trivial, rfl⟩⟩
      · refine fun _ => ⟨fun ⟨_, hzero, _⟩ => ?_, fun ⟨⟨q, hq⟩, _⟩ => absurd hq (hnobody q)⟩
        omega

theorem children_reaped_once_family :
    let s := startedSession (started false .session [])
    let events : List (ProcessEvent × UInt32) :=
      [(.fork ⟨1, 1, 4096, true⟩ { noThread with hostThread := true }, 0), (.exit 2 7, 0),
        (.wait 1 (-1), 0), (.wait 1 2, 0)]
    let ch := Chronicle.run defaultSettings ⟨s, .blank⟩ events
    Opened s ∧ ch.ledger.reported = [2] ∧ ch.ledger.reported.Nodup := by
  intro s events ch
  have hs : Opened s := ⟨rfl, rfl, fun p hp => by cases hp; rfl⟩
  exact ⟨hs, by decide +kernel, (children_reaped_once hs defaultSettings events).1⟩

/-- In every run the table holds, beside the first process, the children that were forked and
have not been reaped, each with its parent: finished, with the status it ended with, if it has
ended, and running if not. -/
theorem table_holds_unreaped (s : { s // Opened s }) (c : Settings)
    (events : List (ProcessEvent × UInt32)) (q : Nat) :
    let ch := Chronicle.run c ⟨s.1, .blank⟩ events
    (∀ p, ch.session.find q = some p → q = 1 ∨ ch.ledger.born q = some p.ppid ∧
        q ∉ ch.ledger.reported ∧ p.finished = (ch.ledger.ended q).isSome ∧
        ∀ status, ch.ledger.ended q = some status → p.exitStatus = status) ∧
      ∀ parent, ch.ledger.born q = some parent → q ∈ ch.ledger.reported ∨
        q ≠ 1 ∧ ∃ p, ch.session.find q = some p ∧ p.ppid = parent := by
  intro ch
  have hkept := (Chronicle.run_wellKept s.2.wellKept events : ch.WellKept).2
  have hentered : ∀ p, q ≠ 1 → ch.session.find q = some p → ch.ledger.born q = some p.ppid ∧
      q ∉ ch.ledger.reported ∧ ch.ledger.ended q = if p.finished then some p.exitStatus else none :=
    fun p hq hp => hkept.entered q p.kin hq (by rw [family, hp, Option.map_some])
  refine ⟨fun p hp => or_iff_not_imp_left.mpr fun hq => ?_,
    fun parent hborn => or_iff_not_imp_left.mpr fun hunreported => ?_⟩
  · obtain ⟨hborn, hunreported, hended⟩ := hentered p hq hp
    rw [hended]
    cases p.finished <;> simp [hborn, hunreported]
  · have hq : q ≠ 1 := fun h => absurd (hkept.numbered q parent hborn).1 (by omega)
    obtain ⟨_, hk⟩ := hkept.remains q parent hborn hunreported
    obtain ⟨p, hp, -⟩ := Option.map_eq_some_iff.mp hk
    have hparent := (hentered p hq hp).1
    rw [hborn, Option.some.injEq] at hparent
    exact ⟨hq, p, hp, hparent.symm⟩

end Fathom
