import Mathlib.Logic.Function.Basic
import Seedloop.Ref.Fault

/-!
# An endpoint's receive side

`_Endpoint._queue`, `_Endpoint._waiter` and the tasks suspended in `recv` on
it. A future is known by its place in the list of the futures `recv` created,
so two waiters are never confused, and a task is known by a number.

What is asyncio's here is the part of `Task` that a suspended coroutine can
see. A task suspended on a future is woken once the future is done; cancelling
it cancels the future if that is still pending and otherwise leaves a mark, and
either way `CancelledError` is what the coroutine resumes with. A mark already
there when the task suspends cancels the new future at once. A task that is
woken may resume at any later time: which one runs first is the ready queue's
business, and no order is assumed here.
-/

namespace Seedloop

/-- The state of a future whose result nobody reads. -/
inductive FutState where
  | pending
  | resolved
  | cancelled
  deriving DecidableEq

/-- A task in the middle of `recv`: the future it awaits, and whether it was
cancelled after that was done. -/
structure Suspended where
  fut : ℕ
  mustCancel : Bool
  deriving DecidableEq

/-- The receive side of an endpoint. -/
structure Inbox (μ : Type) where
  queue : List (Address × μ)
  waiter : Option ℕ
  futures : List FutState
  suspended : ℕ → Option Suspended

/-- How a stretch of `recv` ends for its task. -/
inductive RecvOutcome (μ : Type) where
  | returned (item : Address × μ)
  | suspended
  | raised (error : ApiError)
  | cancelled
  deriving DecidableEq

namespace Inbox

variable {μ : Type}

def init : Inbox μ where
  queue := []
  waiter := none
  futures := []
  suspended := fun _ => none

/-- `fut.done()`. -/
def isDone (b : Inbox μ) (fut : ℕ) : Bool := b.futures[fut]? ≠ some .pending

/-- `_Endpoint._enqueue`. -/
def enqueue (b : Inbox μ) (item : Address × μ) : Inbox μ :=
  let b := { b with queue := b.queue ++ [item] }
  match b.waiter with
  | some fut =>
      if !b.isDone fut then { b with futures := b.futures.set fut .resolved }
      else b
  | none => b

/-- `self._waiter = create_future()`, and the task suspends on it. A task
already marked for cancellation cancels the future it suspends on. -/
def await (b : Inbox μ) (task : ℕ) (mustCancel : Bool) : Inbox μ :=
  { b with
    waiter := some b.futures.length
    futures := b.futures ++ [if mustCancel then .cancelled else .pending]
    suspended := Function.update b.suspended task
      (some ⟨b.futures.length, false⟩) }

/-- `while not self._queue`, from its head: the task takes the first message
or suspends. -/
def recvLoop (b : Inbox μ) (task : ℕ) (mustCancel : Bool) :
    Inbox μ × RecvOutcome μ :=
  match b.queue with
  | item :: rest => ({ b with queue := rest }, .returned item)
  | [] => (b.await task mustCancel, .suspended)

/-- `_Endpoint.recv`, called by a task. -/
def recv (b : Inbox μ) (task : ℕ) (mustCancel : Bool) :
    Inbox μ × RecvOutcome μ :=
  if b.waiter.isSome then (b, .raised .concurrentRecv)
  else b.recvLoop task mustCancel

/-- `Task.cancel()` of a task suspended in `recv`. -/
def cancel (b : Inbox μ) (task : ℕ) (w : Suspended) : Inbox μ :=
  if !b.isDone w.fut then
    { b with futures := b.futures.set w.fut .cancelled }
  else
    { b with
      suspended := Function.update b.suspended task
        (some { w with mustCancel := true }) }

/-- The task resumes: `self._waiter = None` on the way out of the `await`, then
either `CancelledError` or the loop once more. -/
def resume (b : Inbox μ) (task : ℕ) (w : Suspended) :
    Inbox μ × RecvOutcome μ :=
  let thrown := b.futures[w.fut]? = some .cancelled ∨ w.mustCancel = true
  let b := { b with
    waiter := none
    suspended := Function.update b.suspended task none }
  if thrown then (b, .cancelled) else b.recvLoop task false

/-- What can happen to an endpoint's receive side. -/
inductive Act (μ : Type) where
  | deliver (item : Address × μ)
  | recv (task : ℕ) (mustCancel : Bool)
  | cancel (task : ℕ)
  | resume (task : ℕ)

/-- One event, and how the stretch of `recv` it ran ended, if it ran one. -/
def act (b : Inbox μ) : Act μ → Option (Inbox μ × Option (RecvOutcome μ))
  | .deliver item => some (b.enqueue item, none)
  | .recv task mustCancel =>
      if (b.suspended task).isSome then none
      else
        let (b, out) := b.recv task mustCancel
        some (b, some out)
  | .cancel task => (b.suspended task).map fun w => (b.cancel task w, none)
  | .resume task =>
      match b.suspended task with
      | some w =>
          if b.isDone w.fut then
            let (b, out) := b.resume task w
            some (b, some out)
          else none
      | none => none

/-- The machine of an endpoint's receive side. -/
def step (b : Inbox μ) (a : Act μ) : Option (Inbox μ) := (b.act a).map Prod.fst

/-- What a completed `recv` handed over. -/
def returned (b : Inbox μ) (a : Act μ) : List (Address × μ) :=
  match b.act a with
  | some (_, some (.returned item)) => [item]
  | _ => []

/-- What the network put in. -/
def delivered (_ : Inbox μ) : Act μ → List (Address × μ)
  | .deliver item => [item]
  | _ => []

end Inbox

end Seedloop
