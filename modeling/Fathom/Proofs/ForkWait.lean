import Fathom.Proofs.Arena
import Fathom.Lib.Machine
import Fathom.Runtime.Signals

/-!
# A fork that does not come back

Linux lets a parent go on as soon as it has forked (`LinuxTasks`). Here it goes on when
its wait has ended, and the wait of a parent whose child has no stack of its own ends
only with the child's exec or exit.
-/

namespace Fathom

open Tasks SessionSignals ProcessSignals

/-! ## What Linux does -/

structure LinuxTasks (σ : Type) where
  pipes : Pipes
  task : Nat → Option (Option σ)
  nextPid : Nat

namespace LinuxTasks

variable {σ : Type}

def set (s : LinuxTasks σ) (pid : Nat) (t : Option σ) : LinuxTasks σ :=
  { s with task := fun other => if other = pid then some t else s.task other }

def settle (s : LinuxTasks σ) (pid : Nat) : ActionOutcome σ → LinuxTasks σ
  | .goes memory => s.set pid (some memory)
  | .forks _ parent child =>
    ({ s with nextPid := s.nextPid + 1 }.set s.nextPid (some child)).set pid
      (some (parent s.nextPid))
  | .execs memory => s.set pid (some memory)
  | .exits => s.set pid none

def step (m : GuestProgram σ) (s : LinuxTasks σ) (pid : Nat) : Option (LinuxTasks σ) :=
  match s.task pid with
  | some (some memory) =>
    (m.act s.pipes (m.next memory)).map fun (pipes, outcome) => { s with pipes }.settle pid outcome
  | _ => none

def start (memory : σ) : LinuxTasks σ where
  pipes _ := []
  task pid := if pid = 1 then some (some memory) else none
  nextPid := 2

def run (m : GuestProgram σ) (s : LinuxTasks σ) (pids : List Nat) : LinuxTasks σ :=
  pids.foldl (fun s pid => (s.step m pid).getD s) s

def Stuck (m : GuestProgram σ) (s : LinuxTasks σ) : Prop :=
  (∃ pid memory, s.task pid = some (some memory)) ∧ ∀ pid, s.step m pid = none

end LinuxTasks

def Task.memory {σ : Type} : Task σ → Option σ
  | .running memory => some memory
  | .forking _ _ _ memory => some memory
  | .exited => none

namespace Tasks

variable {σ : Type} {m : GuestProgram σ} {s s' : Tasks σ} {pid other child : Nat}
  {r : CopyingFork} {stage : ForkStage} {memory : σ}

def linux (s : Tasks σ) : LinuxTasks σ where
  pipes := s.pipes
  task pid := (s.task pid).map Task.memory
  nextPid := s.nextPid

def Stuck (m : GuestProgram σ) (s : Tasks σ) : Prop :=
  (∃ pid memory, s.linux.task pid = some (some memory)) ∧ ∀ pid, s.step m pid = none

/-! ## Steps -/

theorem linux_set (s : Tasks σ) (pid : Nat) (t : Task σ) :
    (s.set pid t).linux = s.linux.set pid t.memory := by
  simp only [linux, set, LinuxTasks.set, LinuxTasks.mk.injEq, true_and, and_true]
  funext q
  split
  · rfl
  · rfl

theorem linux_settle (s : Tasks σ) (pid : Nat) (outcome : ActionOutcome σ) :
    (s.settle pid outcome).linux = s.linux.settle pid outcome := by
  cases outcome with
  | goes _ => exact linux_set s pid _
  | forks _ _ _ =>
    simp only [settle, linux_set]
    rfl
  | execs _ => exact linux_set s pid _
  | exits => exact linux_set s pid _

theorem step_cases (h : s.step m pid = some s') :
    (∃ child r stage memory t, s.task pid = some (.forking child r stage memory) ∧
        t.memory = some memory ∧ s' = s.set pid t ∧
        (t = .running memory ∨ (stage = .bounded ∧ r.1.stack = 0 ∧
          t = .forking child r .unbounded memory))) ∨
      ∃ memory pipes outcome, s.task pid = some (.running memory) ∧
        m.act s.pipes (m.next memory) = some (pipes, outcome) ∧
        s' = ({ s with pipes } : Tasks σ).settle pid outcome := by
  rw [step] at h
  split at h
  · cases h
  · cases h
  next child r stage memory htask =>
    refine .inl ⟨child, r, stage, memory, ?_⟩
    by_cases hreleased : s.released child = true
    · cases stage <;>
        simp only [forkWait, hreleased, if_true, Option.some.injEq] at h <;>
        exact ⟨.running memory, htask, rfl, h.symm, .inl rfl⟩
    · cases stage with
      | bounded =>
        by_cases hstack : r.1.stack ≠ 0
        · simp only [forkWait, if_neg hreleased, if_pos hstack, Option.some.injEq] at h
          exact ⟨.running memory, htask, rfl, h.symm, .inl rfl⟩
        · simp only [forkWait, if_neg hreleased, if_neg hstack, Option.some.injEq] at h
          exact ⟨_, htask, rfl, h.symm, .inr ⟨rfl, not_not.mp hstack, rfl⟩⟩
      | unbounded =>
        rw [forkWait, if_neg hreleased] at h
        cases h
  next memory htask =>
    obtain ⟨⟨pipes, outcome⟩, hact, hout⟩ := Option.map_eq_some_iff.mp h
    exact .inr ⟨memory, pipes, outcome, htask, hact, hout.symm⟩

theorem step_simulates (h : s.step m pid = some s') :
    s'.linux = s.linux ∨ s.linux.step m pid = some s'.linux := by
  obtain ⟨_, r, _, _, t, htask, hmemory, rfl, -⟩ | ⟨memory, _, _, htask, hact, rfl⟩ := step_cases h
  · left
    rw [linux_set, hmemory]
    simp only [LinuxTasks.set, linux, LinuxTasks.mk.injEq, true_and, and_true]
    funext q
    split
    next hq => rw [hq, htask]; rfl
    next => rfl
  · right
    have hlinux : s.linux.task pid = some (some memory) := by simp [linux, htask, Task.memory]
    simp only [LinuxTasks.step, hlinux]
    rw [show s.linux.pipes = s.pipes from rfl, hact, linux_settle]
    rfl

/-! ## What every run keeps -/

/-- Only a child without a stack of its own is waited for without a bound. -/
structure Sound (s : Tasks σ) : Prop where
  numbered : ∀ pid t, s.task pid = some t → pid < s.nextPid
  child : ∀ pid child r stage memory, s.task pid = some (.forking child r stage memory) →
    child < s.nextPid ∧ (stage = .unbounded → r.1.stack = 0)

theorem sound_start (memory : σ) : (start memory).Sound where
  numbered pid t h := by
    simp only [start] at h ⊢
    split at h
    · omega
    · cases h
  child pid child r stage memory h := by
    simp only [start] at h
    split at h
    · cases h
    · cases h

theorem Sound.set (h : s.Sound) {t : Task σ} (hpid : pid < s.nextPid)
    (ht : ∀ child r stage memory, t = .forking child r stage memory →
      child < s.nextPid ∧ (stage = .unbounded → r.1.stack = 0)) : (s.set pid t).Sound where
  numbered q t' hq := by
    simp only [Tasks.set] at hq ⊢
    split at hq
    next heq => exact heq ▸ hpid
    next => exact h.numbered q t' hq
  child q child r stage memory hq := by
    simp only [Tasks.set] at hq ⊢
    split at hq
    next => exact ht child r stage memory (Option.some.inj hq)
    next => exact h.child q child r stage memory hq

theorem Sound.settle (h : s.Sound) (hpid : pid < s.nextPid) (outcome : ActionOutcome σ) :
    (s.settle pid outcome).Sound := by
  cases outcome with
  | goes _ => exact h.set hpid (by simp)
  | forks _ _ child =>
    let s₁ : Tasks σ := { s with
      nextPid := s.nextPid + 1
      released := fun other => if other = s.nextPid then false else s.released other }
    have hgrown : s₁.Sound :=
      ⟨fun q t hq => Nat.lt_succ_of_lt (h.numbered q t hq), fun q child r stage memory hq =>
        (h.child q child r stage memory hq).imp_left Nat.lt_succ_of_lt⟩
    have hchild : (s₁.set s.nextPid (.running child)).Sound :=
      hgrown.set (Nat.lt_succ_self _) (by simp)
    refine hchild.set (Nat.lt_succ_of_lt hpid) fun child' r stage memory heq => ?_
    cases heq
    exact ⟨Nat.lt_succ_self _, by simp⟩
  | execs memory =>
    have hset : (s.set pid (.running memory)).Sound := h.set hpid (by simp)
    exact ⟨hset.numbered, hset.child⟩
  | exits =>
    have hset : (s.set pid .exited).Sound := h.set hpid (by simp)
    exact ⟨hset.numbered, hset.child⟩

theorem step_sound (h : s.Sound) (hstep : s.step m pid = some s') : s'.Sound := by
  obtain ⟨child, r, stage, memory, t, htask, -, rfl, hturn⟩ |
    ⟨_, pipes, outcome, htask, -, rfl⟩ := step_cases hstep
  · refine h.set (h.numbered pid _ htask) fun child' r' stage' memory' heq => ?_
    rcases hturn with rfl | ⟨-, hstack, rfl⟩
    · cases heq
    · cases heq
      exact ⟨(h.child pid child r stage memory htask).1, fun _ => hstack⟩
  · have hpiped : Sound { s with pipes } := ⟨h.numbered, h.child⟩
    exact hpiped.settle (h.numbered pid _ htask) outcome

/-- What the steps of others leave to a process: where it is, and who has let go. -/
structure Kept (s s' : Tasks σ) (other : Nat) : Prop where
  next : s.nextPid ≤ s'.nextPid
  task : s'.task other = s.task other
  released : ∀ q, q < s.nextPid → s.released q = true → s'.released q = true

theorem settle_kept (s : Tasks σ) (hne : other ≠ pid) (hother : other < s.nextPid)
    (outcome : ActionOutcome σ) : Kept s (s.settle pid outcome) other := by
  cases outcome with
  | goes _ => exact ⟨le_rfl, if_neg hne, fun _ _ h => h⟩
  | forks _ _ _ =>
    refine ⟨Nat.le_succ _, ?_, fun q hq h => ?_⟩
    · simp only [settle, set, if_neg hne, if_neg (Nat.ne_of_lt hother)]
    · simp only [settle, set, if_neg (Nat.ne_of_lt hq)]
      exact h
  | execs _ =>
    refine ⟨le_rfl, if_neg hne, fun q _ h => ?_⟩
    simp [settle, releaseParent, set, h]
  | exits =>
    refine ⟨le_rfl, if_neg hne, fun q _ h => ?_⟩
    simp [settle, releaseParent, set, h]

theorem step_kept (hstep : s.step m pid = some s') (hne : other ≠ pid)
    (hother : other < s.nextPid) : Kept s s' other := by
  obtain ⟨-, -, -, -, t, -, -, rfl, -⟩ | ⟨_, pipes, outcome, -, -, rfl⟩ := step_cases hstep
  · exact ⟨le_rfl, if_neg hne, fun _ _ h => h⟩
  · exact ⟨(settle_kept { s with pipes } hne hother outcome).next,
      (settle_kept { s with pipes } hne hother outcome).task,
      (settle_kept { s with pipes } hne hother outcome).released⟩

theorem run_sound (h : s.Sound) (pids : List Nat) : (s.run m pids).Sound := by
  refine List.foldlRecOn pids _ h fun s' hs' pid _ => ?_
  cases hstep : s'.step m pid with
  | none => exact hs'
  | some _ => exact step_sound hs' hstep

theorem run_kept (hother : other < s.nextPid) (pids : List Nat) (hnot : other ∉ pids) :
    Kept s (s.run m pids) other := by
  refine List.foldlRecOn (motive := fun s' => Kept s s' other) pids _
    ⟨le_rfl, rfl, fun _ _ h => h⟩ fun s' hs' pid hpid => ?_
  cases hstep : s'.step m pid with
  | none => exact hs'
  | some _ =>
    have hne : other ≠ pid := fun heq => hnot (heq ▸ hpid)
    have hkept := step_kept hstep hne (hother.trans_le hs'.next)
    exact ⟨hs'.next.trans hkept.next, hkept.task.trans hs'.task, fun q hq h =>
      hkept.released q (hq.trans_le hs'.next) (hs'.released q hq h)⟩

theorem run_linux (memory : σ) (pids : List Nat) :
    ∃ pids', ((start memory).run m pids).linux = (LinuxTasks.start memory).run m pids' := by
  refine List.foldlRecOn (motive := fun s : Tasks σ =>
    ∃ pids', s.linux = (LinuxTasks.start memory).run m pids') pids _ ⟨[], ?_⟩ ?_
  · simp only [linux, start, LinuxTasks.run, LinuxTasks.start, List.foldl_nil,
      LinuxTasks.mk.injEq, true_and, and_true]
    funext q
    split
    · rfl
    · rfl
  · rintro s ⟨pids', hs⟩ pid -
    cases hstep : s.step m pid with
    | none => exact ⟨pids', hs⟩
    | some s' =>
      rcases step_simulates hstep with hsame | hlinux
      · exact ⟨pids', hsame.trans hs⟩
      · have hlast : (LinuxTasks.start memory).run m (pids' ++ [pid]) =
            (LinuxTasks.step m ((LinuxTasks.start memory).run m pids') pid).getD
              ((LinuxTasks.start memory).run m pids') := by
          simp [LinuxTasks.run, List.foldl_cons]
        refine ⟨pids' ++ [pid], ?_⟩
        rw [hlast, ← hs, hlinux]
        rfl

/-! ## The wait -/

theorem returns_iff (h : s.Sound) (htask : s.task pid = some (.forking child r stage memory)) :
    (∃ s', s.step m pid = some s' ∧ s'.task pid = some (.running memory)) ↔
    r.1.stack ≠ 0 ∨ s.released child = true := by
  have hunbounded := (h.child pid child r stage memory htask).2
  simp only [step, htask]
  cases hreleased : s.released child with
  | true =>
    cases stage with
    | bounded => simp [forkWait, set]
    | unbounded => simp [forkWait, set]
  | false =>
    cases stage with
    | bounded =>
      by_cases hstack : r.1.stack = 0
      · simp [forkWait, hstack, set]
      · simp [forkWait, hstack, set]
    | unbounded => simp [forkWait, hunbounded rfl]

theorem stuck_linux (hstuck : s.Stuck m)
    (hnone : ∀ pid child r stage memory, s.task pid ≠ some (.forking child r stage memory)) :
    s.linux.Stuck m := by
  refine ⟨hstuck.1, fun pid => ?_⟩
  have hpid := hstuck.2 pid
  rw [step] at hpid
  simp only [LinuxTasks.step, linux]
  cases htask : s.task pid with
  | none => rfl
  | some t =>
    cases t with
    | running _ =>
      simp only [htask, Option.map_eq_none_iff] at hpid
      simp [Task.memory, hpid]
    | forking child r stage memory => exact absurd htask (hnone pid child r stage memory)
    | exited => rfl

/-! ## What Linux does is done -/

/-- A parent that waits for a child without a stack of its own. -/
def Held (s : Tasks σ) (pid : Nat) : Prop := ∃ child r stage memory,
  s.task pid = some (.forking child r stage memory) ∧ r.1.stack = 0 ∧ s.released child = false

theorem linux_run_running (htask : s.task pid = some (.running memory)) :
    (s.run m [pid]).linux = (s.linux.step m pid).getD s.linux := by
  have hlinux : s.linux.task pid = some (some memory) := by simp [linux, htask, Task.memory]
  simp only [run, List.foldl_cons, List.foldl_nil, step, htask, LinuxTasks.step, hlinux]
  rw [show s.linux.pipes = s.pipes from rfl]
  cases m.act s.pipes (m.next memory) with
  | none => rfl
  | some out => exact linux_settle _ pid out.2

theorem linux_step (hsound : s.Sound) (hfree : ¬ s.Held pid) :
    ∃ pids, (s.run m pids).linux = (s.linux.step m pid).getD s.linux := by
  cases htask : s.task pid with
  | none => exact ⟨[], by simp [run, LinuxTasks.step, linux, htask]⟩
  | some task =>
    cases task with
    | exited => exact ⟨[], by simp [run, LinuxTasks.step, linux, htask, Task.memory]⟩
    | running _ => exact ⟨[pid], linux_run_running htask⟩
    | forking _ _ _ _ =>
      -- It comes out first, which Linux does not see.
      obtain ⟨s₁, hstep, hout⟩ := (returns_iff (m := m) hsound htask).mpr (by grind [Held])
      have hrun : ∀ pids, s.run m (pid :: pids) = s₁.run m pids := by simp [run, hstep]
      rcases step_simulates hstep with hsame | hthere
      · exact ⟨[pid, pid], by rw [hrun, linux_run_running hout, hsame]⟩
      · exact ⟨[pid], by rw [hrun, hthere]; rfl⟩

theorem linux_start (memory : σ) : (start memory).linux = .start memory :=
  congrArg (LinuxTasks.mk _ · _) (funext fun _ => by simp only [start]; split <;> rfl)

end Tasks

/-- Programs of any kind, in any order of their steps. A parent in its fork comes out
of it whatever the others do exactly if its child has a stack of its own or has let
go already. And where that is so of every fork that is under way, nobody can step
only if nobody is in a fork, in a state that the same programs reach on Linux, and
can go no further in there. -/
theorem fork_completes_iff {σ : Type} (m : GuestProgram σ) (memory : σ) (pids : List Nat) :
    let s := (Tasks.start memory).run m pids
    (∀ pid child r stage memory, s.task pid = some (.forking child r stage memory) →
      ((∀ others, pid ∉ others → ∃ after, (s.run m others).step m pid = some after ∧
          after.task pid = some (.running memory)) ↔ r.1.stack ≠ 0 ∨ s.released child = true)) ∧
    (s.Stuck m →
      (∀ pid child r stage memory, s.task pid = some (.forking child r stage memory) →
        r.1.stack ≠ 0 ∨ s.released child = true) →
      (∀ pid child r stage memory, s.task pid ≠ some (.forking child r stage memory)) ∧
        (∃ pids', s.linux = (LinuxTasks.start memory).run m pids') ∧ s.linux.Stuck m) := by
  intro s
  have hsound : s.Sound := run_sound (sound_start memory) pids
  refine ⟨fun pid child r stage memory htask => ⟨fun h => ?_, fun h others hnot => ?_⟩,
    fun hstuck hreleased => ?_⟩
  · exact (returns_iff hsound htask).mp (h [] List.not_mem_nil)
  · have hkept := run_kept (m := m) (hsound.numbered pid _ htask) others hnot
    have hlater := (run_sound (m := m) hsound others)
    refine (returns_iff hlater (hkept.task.trans htask)).mpr (h.imp_right fun hdone => ?_)
    exact hkept.released child (hsound.child pid child r stage memory htask).1 hdone
  · have hnone : ∀ pid child r stage memory, s.task pid ≠ some (.forking child r stage memory) := by
      intro pid child r stage memory htask
      obtain ⟨s', hstep, -⟩ := (returns_iff hsound htask).mpr
        (hreleased pid child r stage memory htask)
      rw [hstuck.2 pid] at hstep
      cases hstep
    exact ⟨hnone, run_linux memory pids, stuck_linux hstuck hnone⟩

def greeting : GuestProgram Nat where
  next
    | 0 => .fork ⟨⟨true, 0, true⟩, rfl⟩ (fun _ => 1) 3
    | 1 => .write 0 7 2
    | 3 => .read 0 fun _ => 2
    | _ => .exit
  capacity _ := 1

theorem fork_waits_for_reader :
    let s := (start 0).run greeting [1, 1]
    s.Stuck greeting ∧ (s.linux.step greeting 1).isSome = true ∧
      (((LinuxTasks.start 0).run greeting [1]).step greeting 1).isSome = true := by
  refine ⟨⟨⟨1, 1, rfl⟩, fun pid => ?_⟩, rfl, rfl⟩
  obtain _ | _ | _ | _ := pid
  · rfl
  · rfl
  · rfl
  · rfl

/-- The states a program gets to are those it gets to on Linux, no more and no fewer, unless
some run of it has a parent wait for a child without a stack of its own. -/
theorem same_states_unless_held {σ : Type} (m : GuestProgram σ) (memory : σ) :
    (∃ pids pid, ((Tasks.start memory).run m pids).Held pid) ∨
    ∀ t, (∃ pids, ((Tasks.start memory).run m pids).linux = t) ↔
    ∃ pids, (LinuxTasks.start memory).run m pids = t := by
  refine or_iff_not_imp_left.mpr fun hfree t => ⟨fun ⟨pids, h⟩ => ?_, ?_⟩
  · exact (run_linux memory pids).imp fun _ => (·.symm.trans h)
  · rintro ⟨pids, rfl⟩
    refine List.foldlRecOn (motive := fun t => ∃ pids, ((start memory).run m pids).linux = t)
      pids _ ⟨[], linux_start memory⟩ ?_
    rintro _ ⟨before, rfl⟩ pid -
    have hsound := run_sound (m := m) (sound_start memory) before
    obtain ⟨more, hmore⟩ := linux_step hsound fun h => hfree ⟨before, pid, h⟩
    exact ⟨before ++ more, by rw [run, List.foldl_append]; exact hmore⟩

/-! ## Whether a fork keeps the guest's numbers -/

open Lib Spanned

namespace GuestProcess

def toHost (p : GuestProcess) (g : UInt64) : UInt64 := g + p.guestBase

def guestMappings (p : GuestProcess) : List (UInt64 × UInt64) :=
  p.syscalls.mappings.map fun (begin, length) => (p.syscalls.toGuest begin, length)

def guestImages (p : GuestProcess) : List ImageRegion :=
  p.syscalls.imageData.map fun region => { region with begin := p.syscalls.toGuest region.begin }

/-- The guest's numbers mean the same bytes of the arena in both. -/
structure KeepsNumbering (parent child : GuestProcess) : Prop where
  addresses : ∀ g k : UInt64, k < parent.space.size →
    parent.toHost g = parent.space.base + k → child.toHost g = child.space.base + k
  mappings : child.guestMappings = parent.guestMappings
  images : child.guestImages = parent.guestImages

variable {shared : List (UInt64 × UInt64)}

theorem forkProcess_copies {parent child : GuestProcess} {request : ForkRequest}
    {reserved : Option Geometry} {h h' : Host}
    (hfork : parent.forkProcess request reserved shared h = .ok (child, h'))
    (hcopies : request.copies = true) : child.guestBase = child.space.base ∧
    child.syscalls.mappings = parent.syscalls.mappings.map
      (fun (begin, length) => (begin + (child.space.base - parent.space.base), length)) ∧
    child.syscalls.imageData = parent.syscalls.imageData.map (fun region => { region with
        begin := region.begin + (child.space.base - parent.space.base) }) := by
  unfold forkProcess at hfork
  rw [if_pos hcopies] at hfork
  cases reserved with
  | none => cases hfork
  | some g =>
    injection hfork with hfork
    injection hfork with hchild _
    subst hchild
    exact ⟨rfl, rfl, rfl⟩

theorem rebased (x a b : UInt64) : x + (b - a) - b = x - a := by
  rw [UInt64.sub_eq_add_neg, UInt64.sub_eq_add_neg b a, UInt64.sub_eq_add_neg x a,
    UInt64.add_comm b (-a), ← UInt64.add_assoc, UInt64.add_assoc _ b (-b),
    UInt64.add_right_neg, UInt64.add_zero]

/-- Which parents a fork that copies keeps the numbers of. -/
theorem forkProcess_keeps_numbering_iff {parent child : GuestProcess} {request : ForkRequest}
    {reserved : Option Geometry} {shared : List (UInt64 × UInt64)} {h h' : Host}
    (hfork : parent.forkProcess request reserved shared h = .ok (child, h'))
    (hcopies : request.copies = true) :
    KeepsNumbering parent child ↔ parent.guestBase = parent.space.base := by
  obtain ⟨hbase, hmap, himg⟩ := forkProcess_copies hfork hcopies
  have hag := parent.agrees
  have hag' := child.agrees
  constructor
  · intro hkeep
    -- The guest's name for the first byte of the arena must be zero.
    have hzero := hkeep.addresses (parent.space.base - parent.guestBase) 0
      (UInt64.lt_iff_toNat_lt.mpr parent.space.size_pos) (by
        unfold toHost
        rw [UInt64.sub_add_cancel, UInt64.add_zero])
    unfold toHost at hzero
    rw [hbase, UInt64.add_comm] at hzero
    have hdiff := (UInt64.add_right_inj _).mp hzero
    rw [← UInt64.sub_add_cancel parent.space.base parent.guestBase, hdiff, UInt64.zero_add]
  · intro heq
    refine ⟨fun g k _ hg => ?_, ?_, ?_⟩
    · unfold toHost at hg ⊢
      rw [heq, UInt64.add_comm] at hg
      rw [hbase, UInt64.add_comm, (UInt64.add_right_inj _).mp hg]
    · unfold guestMappings
      rw [hmap, List.map_map]
      refine List.map_congr_left fun entry _ => ?_
      simp [LinuxSyscalls.toGuest, hag, hag', hbase, heq, rebased]
    · unfold guestImages
      rw [himg, List.map_map]
      refine List.map_congr_left fun region _ => ?_
      simp [LinuxSyscalls.toGuest, hag, hag', hbase, heq, rebased]

/-- A 64-bit process run one to one, with a page at 0x100010000 on record. -/
def oneToOne : GuestProcess where
  is32bit := false
  guestBase := 0
  space := GuestAddressSpace.new Geometry.oneMegabyte
  syscalls := { LinuxSyscalls.new false 0 with mappings := [(0x100010000, 0x4000)] }
  agrees := rfl

def relocated : GuestProcess where
  is32bit := false
  guestBase := 0x100000000
  space := newArena false Geometry.oneMegabyte
  syscalls := { LinuxSyscalls.new false 0x100000000 with mappings := [(0x100010000, 0x4000)] }
  agrees := rfl

theorem forkProcess_renumbers_oneToOne :
    ∃ child h', oneToOne.forkProcess ⟨true, 0, false⟩ (some Geometry.nextMegabyte) []
        Host.fresh = .ok (child, h') ∧ oneToOne.toHost 0x100010000 = oneToOne.space.base + 0x10000 ∧
      child.toHost 0x100010000 = child.space.base + 0x10000 + 0x100000000 ∧
      oneToOne.guestMappings = [(0x100010000, 0x4000)] ∧
      child.guestMappings = [(0x10000, 0x4000)] ∧ ¬ KeepsNumbering oneToOne child := by
  refine ⟨_, _, rfl, by decide, by decide, by decide, by decide, fun hkeep => ?_⟩
  exact absurd hkeep.mappings (by decide)

theorem forkProcess_keeps_relocated :
    ∃ child h', relocated.forkProcess ⟨true, 0, false⟩ (some Geometry.nextMegabyte) []
        Host.fresh = .ok (child, h') ∧ KeepsNumbering relocated child := by
  obtain ⟨⟨child, h'⟩, hfork⟩ : ∃ out, relocated.forkProcess ⟨true, 0, false⟩
      (some Geometry.nextMegabyte) [] Host.fresh = .ok out := ⟨_, rfl⟩
  exact ⟨child, h', hfork, (forkProcess_keeps_numbering_iff hfork rfl).mpr rfl⟩

end GuestProcess

/-! ## Signals across fork, clone and exec: the rules -/

namespace SessionSignals

variable {s : SessionSignals} {p : ProcessSignals} {mask : UInt64} {pid tid : Nat}

def IsSignal (signal : Nat) : Prop := 1 ≤ signal ∧ signal ≤ 64

def Inherits (s : SessionSignals) (e : SignalStep) : Prop :=
  match e with
  | .fork pid tid => ∀ p mask, s.caller pid tid = some (p, mask) →
      ∃ child, (s.step e).process s.nextPid = some child ∧ child.mask = mask ∧
        ∀ signal, IsSignal signal → child.actions signal = p.actions signal
  | .createThread pid tid => ∀ p mask, s.caller pid tid = some (p, mask) →
      ∃ after, (s.step e).process pid = some after ∧ after.maskOf pid s.nextPid = some mask
  | .exec pid tid => ∀ p mask, s.caller pid tid = some (p, mask) →
      ∃ after, (s.step e).process pid = some after ∧ after.mask = mask ∧ ∀ signal, IsSignal signal →
          ((p.actions signal).handled = true → (after.actions signal).handler = 0) ∧
            ((p.actions signal).handler = 1 → (after.actions signal).handler = 1)
  | .sigaction _ _ _ _ => True
  | .sigprocmask _ _ _ _ => True

def Inheritable (s : SessionSignals) (e : SignalStep) : Prop :=
  match e with
  | .fork pid tid => ∀ p mask, s.caller pid tid = some (p, mask) →
      mask = 0 ∧ ∀ signal, IsSignal signal → p.actions signal = .none
  | .createThread pid tid => ∀ p mask, s.caller pid tid = some (p, mask) → mask = 0
  | .exec pid tid => ∀ p mask, s.caller pid tid = some (p, mask) →
      p.mask = mask ∧ ∀ signal, IsSignal signal → (p.actions signal).handled = false
  | .sigaction _ _ _ _ => True
  | .sigprocmask _ _ _ _ => True

theorem set_process (s : SessionSignals) (pid : Nat) (p : ProcessSignals) :
    (s.set pid p).process pid = some p := if_pos rfl

section

variable (h : s.caller pid tid = some (p, mask))
include h

theorem pid_lt : pid < s.nextPid := by
  by_contra hge
  simp [caller, s.fresh pid (Nat.le_of_not_lt hge)] at h

theorem fork_inherits_iff :
    (∃ child, (s.step (.fork pid tid)).process s.nextPid = some child ∧ child.mask = mask ∧
        ∀ signal, IsSignal signal → child.actions signal = p.actions signal) ↔
      mask = 0 ∧ ∀ signal, IsSignal signal → p.actions signal = .none := by
  simp only [step, h, set_process, Option.some.injEq, exists_eq_left', cloneInto]
  exact and_congr eq_comm (forall₂_congr fun _ _ => eq_comm)

theorem createThread_inherits_iff :
    (∃ after, (s.step (.createThread pid tid)).process pid = some after ∧
        after.maskOf pid s.nextPid = some mask) ↔ mask = 0 := by
  have hne : s.nextPid ≠ pid := Nat.ne_of_gt (pid_lt h)
  simp only [step, h, set_process, Option.some.injEq, exists_eq_left', maskOf,
    if_neg hne, shareInto, if_pos]
  exact eq_comm

theorem exec_inherits_iff :
    (∃ after, (s.step (.exec pid tid)).process pid = some after ∧ after.mask = mask ∧
        ∀ signal, IsSignal signal →
          ((p.actions signal).handled = true → (after.actions signal).handler = 0) ∧
            ((p.actions signal).handler = 1 → (after.actions signal).handler = 1)) ↔
      p.mask = mask ∧ ∀ signal, IsSignal signal → (p.actions signal).handled = false := by
  simp only [step, h, set_process, Option.some.injEq, exists_eq_left', adoptImage,
    stopAndJoinOtherThreads]
  refine and_congr_right fun _ => forall₂_congr fun signal _ => ?_
  -- what has a handler has one that is not zero, and keeps it
  constructor
  · rintro ⟨hdefault, -⟩
    by_contra hhandled
    rw [Bool.not_eq_false] at hhandled
    have hzero := hdefault hhandled
    simp [SignalAction.handled, hzero] at hhandled
  · intro hnone
    exact ⟨fun hhandled => absurd (hnone.symm.trans hhandled) (by simp), id⟩

end

theorem inherits_iff (s : SessionSignals) (e : SignalStep) : s.Inherits e ↔ s.Inheritable e := by
  cases e with
  | fork _ _ => exact forall₂_congr fun p mask => forall_congr' fork_inherits_iff
  | createThread _ _ => exact forall₂_congr fun p mask => forall_congr' createThread_inherits_iff
  | exec _ _ => exact forall₂_congr fun p mask => forall_congr' exec_inherits_iff
  | sigaction _ _ _ _ => exact Iff.rfl
  | sigprocmask _ _ _ _ => exact Iff.rfl

end SessionSignals

/-- Along every run, from every session, the rules are obeyed at each step exactly
if there is nothing to inherit, or to put back, at any of them. -/
theorem signals_inherited_iff (s : SessionSignals) (events : List SignalStep) :
    Along step Inherits s events ↔
    Along step Inheritable s events :=
  along_congr inherits_iff s events

def oneQuietProcess : SessionSignals where
  process pid := if pid = 1 then some .new else none
  nextPid := 2
  fresh pid h := if_neg (by omega)

theorem signals_not_inherited :
    let interrupted : SignalAction := ⟨0x401000, 0, 0, 0⟩
    let prepared : List SignalStep :=
      [.sigaction 1 1 13 ⟨1, 0, 0, 0⟩, .sigaction 1 1 2 interrupted, .sigprocmask 1 1 0 0x200]
    let s := prepared.foldl step oneQuietProcess
    let child := (s.step (.fork 1 1)).process 2
    let threaded := (s.step (.createThread 1 1)).process 1
    let execed := (s.step (.exec 1 1)).process 1
    child.map (fun p => (p.actions 13, p.actions 2, p.mask)) = some (.none, .none, 0) ∧
      threaded.bind (fun p => p.maskOf 1 2) = some 0 ∧
      execed.map (fun p => p.actions 2) = some interrupted ∧
      ¬ s.Inherits (.fork 1 1) ∧ ¬ s.Inherits (.createThread 1 1) ∧ ¬ s.Inherits (.exec 1 1) := by
  intro interrupted prepared s child threaded execed
  refine ⟨by decide, by decide, by decide, fun h => ?_, fun h => ?_, fun h => ?_⟩
  · exact absurd ((s.inherits_iff (.fork 1 1)).mp h _ _ rfl).1 (by decide)
  · exact absurd ((s.inherits_iff (.createThread 1 1)).mp h _ _ rfl) (by decide)
  · exact absurd (((s.inherits_iff (.exec 1 1)).mp h _ _ rfl).2 2 ⟨by decide, by decide⟩)
      (by decide)

end Fathom
