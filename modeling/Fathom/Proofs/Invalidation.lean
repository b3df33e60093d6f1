import Fathom.Runtime.Invalidation
import Mathlib.Algebra.BigOperators.Group.Finset.Basic

/-!
# No invalidation is lost

A range changes hands, and no step drops one. What is deferred is deferred under the lock,
with a hold seen under it: should the last hold go before the range is on the list, its
release cannot have the lock before.
-/

namespace Fathom

open CallState

/-- What a call has in its hands. -/
def CallState.carries {α : Type} : CallState α → List α
  | .asked range | .sawHold range | .locked range | .deferring range | .sweeping range => [range]
  | .queueing ranges => ranges
  | .idle | .releasing => []

namespace Invalidations

variable {α : Type} (s : Invalidations α) {thread : Nat}

/-- The lists a range can be on: swept, with the worker or on its queue, deferred. -/
def places : List α := s.swept ++ s.queue ++ s.batch ++ s.deferred

/-- A range is on one of the lists or with a call, be it the one that asks for it, the
worker's or a release. -/
def Has (range : α) : Prop :=
  range ∈ s.places ∨ ∃ thread, range ∈ (s.calls thread).carries

/-- A hold is active, or the release of the last one has yet to take the list. -/
def Awaited : Prop := 0 < s.freezes ∨ ∃ thread, s.calls thread = .releasing

structure Inv : Prop where
  kept : ∀ range ∈ s.requested, s.Has range
  awaited : s.deferred ≠ [] → s.Awaited
  holder : ∀ thread range, s.calls thread = .locked range ∨ s.calls thread = .deferring range →
    s.lock = some thread
  deferring : ∀ thread range, s.calls thread = .deferring range → s.Awaited

variable {s} {s' : Invalidations α} {call : CallState α}

theorem Awaited.goes (h : s.Awaited) (hcalls : s'.calls = s.calls)
    (hfreezes : s'.freezes = s.freezes) (hlast : s.calls thread ≠ .releasing) :
    (s'.goes thread call).Awaited := by
  rcases h with hholds | ⟨other, hreleasing⟩
  · exact .inl (Nat.lt_of_lt_of_eq hholds hfreezes.symm)
  · refine .inr ⟨other, ?_⟩
    rw [Invalidations.goes, hcalls]
    refine (if_neg ?_).trans hreleasing
    rintro rfl
    exact hlast hreleasing

section

variable (hi : s.Inv) (hcalls : s'.calls = s.calls)
  (hrequested : ∀ r, r ∈ s'.requested → r ∈ s.requested ∨ r ∈ call.carries)
  (hmoved : s.places ++ (s.calls thread).carries ⊆ s'.places ++ call.carries)
include hi hcalls hrequested hmoved

/-- A thread goes on in its call, and the rest becomes `s'`. What it carried and what lay
anywhere is somewhere; the lock is its own or as it was; and the list is still awaited, or has
been taken with the lock free. -/
theorem Inv.goes (hlock : ∀ other, other ≠ thread → s.lock = some other → s'.lock = some other)
    (hown : ∀ r, call = .locked r ∨ call = .deferring r → s'.lock = some thread)
    (hawaits : s.Awaited → (s'.goes thread call).Awaited ∨ s'.deferred = [] ∧ s.lock = none)
    (hdeferred : s'.deferred ≠ [] → s.Awaited)
    (hdefers : ∀ r, call = .deferring r → (s'.goes thread call).Awaited) :
    (s'.goes thread call).Inv := by
  have hother : ∀ other, other ≠ thread → (s'.goes thread call).calls other = s.calls other :=
    fun other hne => (if_neg hne).trans (congrFun hcalls other)
  have hself : (s'.goes thread call).calls thread = call := if_pos rfl
  have hput : ∀ r, r ∈ s'.places ++ call.carries → (s'.goes thread call).Has r := by
    intro r hmem
    refine (List.mem_append.mp hmem).imp_right fun hcall => ⟨thread, ?_⟩
    rw [hself]
    exact hcall
  refine ⟨fun r hr => ?_, fun hne => ?_, fun other r hr => ?_, fun other r hr => ?_⟩
  · rcases hrequested r hr with hold | hnew
    · rcases hi.kept r hold with hplace | ⟨other, hcall⟩
      · exact hput r (hmoved (List.mem_append_left _ hplace))
      · by_cases heq : other = thread
        · subst heq
          exact hput r (hmoved (List.mem_append_right _ hcall))
        · exact .inr ⟨other, by rw [hother other heq]; exact hcall⟩
    · exact hput r (List.mem_append_right _ hnew)
  · exact (hawaits (hdeferred hne)).resolve_right fun h => hne h.1
  · by_cases heq : other = thread
    · subst heq
      rw [hself] at hr
      exact hown r hr
    · rw [hother other heq] at hr
      exact hlock other heq (hi.holder other r hr)
  · by_cases heq : other = thread
    · subst heq
      rw [hself] at hr
      exact hdefers r hr
    · rw [hother other heq] at hr
      refine (hawaits (hi.deferring other r hr)).resolve_right fun h => ?_
      cases h.2.symm.trans (hi.holder other r (.inr hr))

theorem Inv.goes_quietly (hfreezes : s'.freezes = s.freezes)
    (hsame : s'.lock = s.lock ∧ s'.deferred = s.deferred) (hlast : s.calls thread ≠ .releasing)
    (hcall : ∀ r, call ≠ .locked r ∧ call ≠ .deferring r) : (s'.goes thread call).Inv := by
  refine hi.goes hcalls hrequested hmoved (fun _ _ h => hsame.1.trans h) (fun r h => ?_)
    (fun h => .inl (h.goes hcalls hfreezes hlast)) (fun h => hi.awaited (hsame.2 ▸ h))
    fun r h => absurd h (hcall r).2
  exact (h.elim (hcall r).1 (hcall r).2).elim

end

theorem Inv.advance (hi : s.Inv) (thread : Nat) : (s.advance thread).Inv := by
  have hstays {s' : Invalidations α} {call : CallState α} (hne : s.calls thread ≠ .releasing)
      (hcalls : s'.calls = s.calls) (hfreezes : s'.freezes = s.freezes) (h : s.Awaited) :
      (s'.goes thread call).Awaited ∨ s'.deferred = [] ∧ s.lock = none :=
    .inl (h.goes hcalls hfreezes hne)
  unfold Invalidations.advance
  cases hcall : s.calls thread with
  | idle =>
    dsimp only
    split
    · exact hi
    next range rest hbatch =>
      by_cases hworker : thread = 0
      · subst hworker
        exact hi.goes_quietly rfl (fun r => .inl) (by grind [places, carries]) rfl
          ⟨rfl, rfl⟩ (by simp [hcall]) (by simp)
      · rw [if_neg hworker]
        exact hi
  | asked _ =>
    refine hi.goes_quietly rfl (fun r => .inl) ?_ rfl ⟨rfl, rfl⟩ (by simp [hcall]) fun r => ?_
    · grind [places, carries]
    · split <;> simp
  | sawHold _ =>
    dsimp only
    by_cases hfree : s.lock = none
    · rw [if_pos hfree]
      exact hi.goes rfl (fun r => .inl) (by grind [places, carries]) (by simp [hfree])
        (fun _ _ => rfl) (hstays (by simp [hcall]) rfl rfl) hi.awaited (by simp)
    · rw [if_neg hfree]
      exact hi
  | locked range =>
    dsimp only
    have hmine := hi.holder thread range (.inl hcall)
    by_cases hholds : s.freezes > 0
    · rw [if_pos hholds]
      exact hi.goes rfl (fun r => .inl) (by grind [places, carries]) (fun _ _ h => h)
        (fun _ _ => hmine) (hstays (by simp [hcall]) rfl rfl) hi.awaited fun _ _ => .inl hholds
    · rw [if_neg hholds]
      refine hi.goes rfl (fun r => .inl) (by grind [places, carries])
        (fun other hne h => ?_) (by simp) (hstays (by simp [hcall]) rfl rfl) hi.awaited (by simp)
      exact absurd (Option.some.inj (h.symm.trans hmine)) hne
  | deferring range =>
    have hmine := hi.holder thread range (.inr hcall)
    refine hi.goes rfl (fun r => .inl) (by grind [places, carries])
      (fun other hne h => ?_) (by simp) (hstays (by simp [hcall]) rfl rfl)
      (fun _ => hi.deferring thread range hcall) (by simp)
    exact absurd (Option.some.inj (h.symm.trans hmine)) hne
  | sweeping _ | queueing _ =>
    exact hi.goes_quietly rfl (fun r => .inl) (by grind [places, carries]) rfl
      ⟨rfl, rfl⟩ (by simp [hcall]) (by simp)
  | releasing =>
    by_cases hfree : s.lock = none
    · rw [if_pos hfree]
      exact hi.goes rfl (fun r => .inl) (by grind [places, carries]) (fun _ _ h => h)
        (by simp) (fun _ => .inr ⟨rfl, hfree⟩) (by simp) (by simp)
    · rw [if_neg hfree]
      exact hi

theorem Inv.step (hi : s.Inv) (e : InvalidationEvent α) : (s.step e).Inv := by
  cases e with
  | hold =>
    exact ⟨hi.kept, fun _ => .inl (Nat.succ_pos _), hi.holder, fun _ _ _ => .inl (Nat.succ_pos _)⟩
  | release thread =>
    rw [Invalidations.step]
    split
    next hcall hone =>
      exact hi.goes rfl (fun r => .inl) (by grind [places, carries]) (fun _ _ h => h)
        (by simp) (fun _ => .inl (.inr ⟨thread, if_pos rfl⟩)) hi.awaited (by simp)
    · exact ⟨hi.kept, fun _ => .inl (Nat.succ_pos _), hi.holder, fun _ _ _ => .inl (Nat.succ_pos _)⟩
    · exact hi
  | invalidate _ _ =>
    rw [Invalidations.step]
    split
    next hcall =>
      exact hi.goes_quietly rfl (by simp [carries]) (by grind [places, carries]) rfl
        ⟨rfl, rfl⟩ (by simp [hcall]) (by simp)
    · exact hi
  | later _ =>
    refine ⟨fun r hr => ?_, hi.awaited, hi.holder, hi.deferring⟩
    rcases List.mem_append.mp hr with hold | hnew
    · exact (hi.kept r hold).imp_left fun h => by grind [places, Invalidations.step]
    · exact .inl (by grind [places, Invalidations.step])
  | collect =>
    rw [Invalidations.step]
    split
    next hcall hbatch =>
      refine ⟨fun r hr => ?_, hi.awaited, hi.holder, hi.deferring⟩
      exact (hi.kept r hr).imp_left fun h => by grind [places]
    · exact hi
  | advance thread => exact hi.advance thread

/-- A thread is in `InvalidateCompiledCode` with a range. -/
def InCall (s : Invalidations α) (thread : Nat) (range : α) : Prop :=
  s.calls thread ∈ [.asked range, .sawHold range, .locked range, .deferring range, .sweeping range]

/-- The call that asks for a range has not come back. The worker's calls ask for nothing new. -/
def Asking (s : Invalidations α) (range : α) : Prop := ∃ thread ≠ 0, s.InCall thread range

/-- A range is swept, on the worker's queue, in its batch or the one of it that the worker is
at, on the list that a release has taken, or on the deferred list. -/
def Placed (s : Invalidations α) (range : α) : Prop :=
  range ∈ s.swept ∨ range ∈ s.queue ∨ range ∈ s.batch ∨ s.InCall 0 range ∨
  (∃ thread ranges, s.calls thread = .queueing ranges ∧ range ∈ ranges) ∨ range ∈ s.deferred

theorem Has.placed {range : α} (h : s.Has range) : s.Placed range ∨ s.Asking range := by
  rcases h with hplace | ⟨thread, hcall⟩
  · simp only [places, List.mem_append] at hplace
    left
    rcases hplace with ((hswept | hqueue) | hbatch) | hdeferred
    · exact .inl hswept
    · exact .inr (.inl hqueue)
    · exact .inr (.inr (.inl hbatch))
    · exact .inr (.inr (.inr (.inr (.inr hdeferred))))
  · by_cases hin : s.InCall thread range
    · by_cases hworker : thread = 0
      · subst hworker
        exact .inl (.inr (.inr (.inr (.inl hin))))
      · exact .inr ⟨thread, hworker, hin⟩
    · cases hstate : s.calls thread with
      | queueing ranges =>
        rw [hstate] at hcall
        exact .inl (.inr (.inr (.inr (.inr (.inl ⟨thread, ranges, hstate, hcall⟩)))))
      | _ => simp_all [InCall, carries]

/-- In every interleaving: each range that was asked for, once the call that asks has come
back, is in one of its places; and there is something deferred only while a hold is active or
the last release has yet to take it. -/
theorem invalidations_kept (events : List (InvalidationEvent α)) :
    let s := events.foldl step ({} : Invalidations α)
    (∀ range ∈ s.requested, s.Placed range ∨ s.Asking range) ∧ (s.deferred ≠ [] → s.Awaited) := by
  have hinv : ∀ s : Invalidations α, s.Inv → (events.foldl step s).Inv := by
    induction events with
    | nil => exact fun _ hs => hs
    | cons e _ ih => exact fun s hs => ih _ (hs.step e)
  have hstart : ({} : Invalidations α).Inv := ⟨by simp, by simp, by simp, by simp⟩
  exact ⟨fun r hr => ((hinv _ hstart).kept r hr).placed, (hinv _ hstart).awaited⟩

/-- The call has yet to look whether anything is held. -/
theorem invalidation_asked_unplaced :
    let s := [.invalidate 1 ()].foldl step ({} : Invalidations Unit)
    () ∈ s.requested ∧ ¬ s.Placed () := by
  intro s
  have hcalls : ∀ thread ranges, s.calls thread ≠ .queueing ranges := fun thread ranges => by
    change (if thread = 1 then asked () else .idle) ≠ _
    split <;> simp
  refine ⟨List.mem_singleton_self _, ?_⟩
  rintro (h | h | h | h | ⟨_, _, h, _⟩ | h)
  · cases h
  · cases h
  · cases h
  · simp [InCall, s, step, goes] at h
  · exact hcalls _ _ h
  · cases h

/-! ## None is made twice -/

variable [DecidableEq α]

/-- Each range is on the lists and with the calls as often as it was asked for. -/
def Balanced (s : Invalidations α) : Prop :=
  ∃ threads : Finset Nat, (∀ t ∉ threads, (s.calls t).carries = []) ∧ ∀ r,
  s.places.count r + ∑ t ∈ threads, (s.calls t).carries.count r = s.requested.count r

theorem Balanced.goes (h : s.Balanced) (hcalls : s'.calls = s.calls)
    (hmoved : ∀ r, s'.places.count r + call.carries.count r + s.requested.count r =
      s.places.count r + (s.calls thread).carries.count r + s'.requested.count r) :
    (s'.goes thread call).Balanced := by
  obtain ⟨threads, hnone, hcount⟩ := h
  have hrest : ∀ t, t ≠ thread → (s'.goes thread call).calls t = s.calls t :=
    fun t ht => (if_neg ht).trans (congrFun hcalls t)
  refine ⟨insert thread threads, by grind, fun r => ?_⟩
  have hold := hcount r
  rw [← Finset.sum_insert_of_eq_zero_if_notMem (a := thread) fun h => by simp [hnone _ h],
    ← Finset.add_sum_erase _ _ (Finset.mem_insert_self _ _)] at hold
  rw [← Finset.add_sum_erase _ _ (Finset.mem_insert_self _ _), Finset.sum_congr rfl fun t ht =>
    by rw [hrest t (Finset.ne_of_mem_erase ht)]]
  grind [Invalidations.goes, places]

theorem Balanced.advance (h : s.Balanced) (thread : Nat) : (s.advance thread).Balanced := by
  unfold Invalidations.advance
  cases hcall : s.calls thread with
  | idle =>
    dsimp only
    split
    · exact h
    next range rest hbatch =>
      by_cases hworker : thread = 0
      · subst hworker
        exact h.goes rfl (by grind [places, carries])
      · rw [if_neg hworker]
        exact h
  | asked _ => exact h.goes rfl (by grind [carries])
  | sawHold _ | locked _ | releasing =>
    dsimp only
    split
    · exact h.goes rfl (by grind [places, carries])
    · first
        | exact h
        | exact h.goes rfl (by grind [places, carries])
  | deferring _ | sweeping _ | queueing _ =>
    exact h.goes rfl (by grind [places, carries])

theorem Balanced.step (h : s.Balanced) (e : InvalidationEvent α) : (s.step e).Balanced := by
  have ⟨threads, hnone, hcount⟩ := h
  cases e with
  | hold => exact h
  | release _ =>
    rw [Invalidations.step]
    split
    next hcall _ => exact h.goes rfl (by grind [places, carries])
    · exact h
    · exact h
  | invalidate _ _ =>
    rw [Invalidations.step]
    split
    next hcall => exact h.goes rfl (by grind [places, carries])
    · exact h
  | later _ => exact ⟨threads, hnone, by rw [Invalidations.step]; grind [places]⟩
  | collect =>
    rw [Invalidations.step]
    split
    · exact ⟨threads, hnone, by grind [places]⟩
    · exact h
  | advance thread => exact h.advance thread

/-- In every interleaving no range is swept more often than it was asked for. And once no call
is under way, nothing is held and the queue is empty, each request has been swept once. -/
theorem invalidations_once (events : List (InvalidationEvent α)) :
    let s := events.foldl step ({} : Invalidations α)
    (∀ r, s.swept.count r ≤ s.requested.count r) ∧
      ((∀ t, s.calls t = .idle) → s.freezes = 0 → s.queue = [] → s.batch = [] →
        s.swept.Perm s.requested) := by
  intro s
  have hinv : s.Inv ∧ s.Balanced :=
    List.foldlRecOn (motive := fun s => s.Inv ∧ s.Balanced) events step
      ⟨⟨by simp, by simp, by simp, by simp⟩, ∅, by simp [carries], by simp [places]⟩
      fun _ hs e _ => ⟨hs.1.step e, hs.2.step e⟩
  obtain ⟨hinv, _, -, hcount⟩ := hinv
  refine ⟨fun r => by grind [places], fun hidle hfree hqueue hbatch => ?_⟩
  have hdeferred : s.deferred = [] := by
    have := hinv.awaited
    grind [Awaited]
  refine List.perm_iff_count.mpr fun r => ?_
  simpa [places, hqueue, hbatch, hdeferred, hidle, carries] using hcount r

end Invalidations

end Fathom
