/-!
# Throwing compiled code away (`fex_engine.cpp`)

Any number of threads hold invalidations, release them and ask for them, and one worker
goes through a queue. A step is one operation on `g_freezes`, or what is done with one of
the two locks held; `α` is the ranges that are not empty, each request's its own.
-/

namespace Fathom

/-- Where a thread is in a call. -/
inductive CallState (α : Type) where
  | idle
  /-- `InvalidateCompiledCode`, before it has looked. -/
  | asked (range : α)
  | sawHold (range : α)
  /-- It has `g_deferred_mutex`, and looks again. -/
  | locked (range : α)
  | deferring (range : α)
  | sweeping (range : α)
  /-- `ReleaseInvalidations`, of the last hold, before it takes what was deferred. -/
  | releasing
  | queueing (ranges : List α)

inductive InvalidationEvent (α : Type) where
  | hold
  | release (thread : Nat)
  | invalidate (thread : Nat) (range : α)
  /-- `InvalidateCompiledCodeLater`. -/
  | later (range : α)
  /-- The worker swaps the queue with its batch. -/
  | collect
  /-- A thread's next step in the call it is in. -/
  | advance (thread : Nat)

/-- The worker is thread 0. -/
structure Invalidations (α : Type) where
  freezes : Nat := 0
  lock : Option Nat := none
  deferred : List α := []
  queue : List α := []
  batch : List α := []
  swept : List α := []
  requested : List α := []
  calls : Nat → CallState α := fun _ => .idle

namespace Invalidations

variable {α : Type}

def goes (s : Invalidations α) (thread : Nat) (call : CallState α) : Invalidations α :=
  { s with calls := fun other => if other = thread then call else s.calls other }

def advance (s : Invalidations α) (thread : Nat) : Invalidations α :=
  match s.calls thread with
  | .idle =>
    match s.batch with
    | [] => s
    | range :: rest => if thread = 0 then { s with batch := rest }.goes 0 (.asked range) else s
  | .asked range => s.goes thread (if s.freezes > 0 then .sawHold range else .sweeping range)
  | .sawHold range =>
    if s.lock = none then { s with lock := some thread }.goes thread (.locked range) else s
  | .locked range =>
    if s.freezes > 0 then s.goes thread (.deferring range)
    else { s with lock := none }.goes thread (.sweeping range)
  | .deferring range => { s with deferred := s.deferred ++ [range], lock := none }.goes thread .idle
  | .sweeping range => { s with swept := s.swept ++ [range] }.goes thread .idle
  | .releasing =>
    if s.lock = none then { s with deferred := [] }.goes thread (.queueing s.deferred) else s
  | .queueing ranges => { s with queue := s.queue ++ ranges }.goes thread .idle

def step (s : Invalidations α) : InvalidationEvent α → Invalidations α
  | .hold => { s with freezes := s.freezes + 1 }
  | .release thread =>
    match s.calls thread, s.freezes with
    | .idle, 1 => { s with freezes := 0 }.goes thread .releasing
    | .idle, holds + 2 => { s with freezes := holds + 1 }
    | _, _ => s
  | .invalidate thread range =>
    match s.calls thread with
    | .idle => { s with requested := s.requested ++ [range] }.goes thread (.asked range)
    | _ => s
  | .later range => { s with queue := s.queue ++ [range], requested := s.requested ++ [range] }
  | .collect =>
    match s.calls 0, s.batch with
    | .idle, [] => { s with batch := s.queue, queue := [] }
    | _, _ => s
  | .advance thread => s.advance thread

end Invalidations

end Fathom
