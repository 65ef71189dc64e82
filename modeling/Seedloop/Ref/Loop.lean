import Mathlib.Data.Finset.Insert
import Mathlib.Data.Prod.Lex
import Seedloop.Lib.PQueue
import Seedloop.Ref.Number

/-!
# The deterministic loop: ready queue, timer heap, virtual clock

`_loop.py` less its user code. A step of `_run_once` is split where the
source splits it: `beginStep` is everything up to the batch (the autojump and
the promotion of due timers), and running the batch is left to the state that
owns the callbacks. `heapq` is a `PQueue` on `(when, seq)`, and a handle is
known by a number of its own, since the source compares handles by identity.

The autojump is the only place the clock is written, and it is guarded three
times: nothing is ready, the step is not a stop step, and a live timer below
infinity is scheduled. Cancelled timers are only dropped at the head of the
heap, where one could be mistaken for a deadline.
-/

namespace Seedloop

/-- `asyncio.Handle` and `TimerHandle`: what to run, and for a timer when. -/
structure Handle (κ : Type) where
  id : ℕ
  callback : κ
  when? : Option When
  deriving DecidableEq

/-- An entry of the timer heap. -/
structure Timer (κ : Type) where
  when : When
  seq : ℕ
  handle : Handle κ
  deriving DecidableEq

/-- The heap order: by deadline, equal deadlines in scheduling order. -/
def Timer.key {κ : Type} (t : Timer κ) : When ×ₗ ℕ := toLex (t.when, t.seq)

/-- `DeterministicLoop`, with the fields of `BaseEventLoop` it uses. -/
structure Loop (κ : Type) where
  time : ℚ
  timers : PQueue (Timer κ) Timer.key
  timerSeq : ℕ
  ready : List (Handle κ)
  cancelled : Finset ℕ
  nextHandle : ℕ
  stopping : Bool

namespace Loop

variable {κ : Type}

def init : Loop κ where
  time := 0
  timers := .empty
  timerSeq := 0
  ready := []
  cancelled := ∅
  nextHandle := 0
  stopping := false

/-- `BaseEventLoop.call_soon`. -/
def callSoon (l : Loop κ) (callback : κ) : Loop κ :=
  { l with
    ready := l.ready ++ [⟨l.nextHandle, callback, none⟩]
    nextHandle := l.nextHandle + 1 }

/-- `call_at`, past its `NaN` check. -/
def callAt (l : Loop κ) (when : When) (callback : κ) : Loop κ :=
  { l with
    timers := l.timers.push
      ⟨when, l.timerSeq, ⟨l.nextHandle, callback, some when⟩⟩
    timerSeq := l.timerSeq + 1
    nextHandle := l.nextHandle + 1 }

/-- `Handle.cancel`: the entry stays where it is and is skipped later. -/
def cancel (l : Loop κ) (id : ℕ) : Loop κ :=
  { l with cancelled := insert id l.cancelled }

/-- `BaseEventLoop.stop`. -/
def stop (l : Loop κ) : Loop κ := { l with stopping := true }

/-- `handle.cancelled()`. -/
def isCancelled (l : Loop κ) (h : Handle κ) : Bool := h.id ∈ l.cancelled

/-- `_purge_cancelled_timers`. -/
def purgeCancelledTimers (l : Loop κ) : Loop κ :=
  { l with timers := l.timers.dropWhile fun t => l.isCancelled t.handle }

/-- A timer whose deadline has arrived. -/
def isDue (l : Loop κ) (t : Timer κ) : Bool := t.when ≤ .fin l.time

/-- The timers `_fire_due_timers` promotes: the due ones, less the cancelled
ones, in the order it pops them. -/
def promoted (l : Loop κ) : List (Timer κ) :=
  (l.timers.takeWhile l.isDue).filter fun t => !l.isCancelled t.handle

/-- `_fire_due_timers`. -/
def fireDueTimers (l : Loop κ) : Loop κ :=
  { l with
    timers := l.timers.dropWhile l.isDue
    ready := l.ready ++ l.promoted.map Timer.handle }

/-- `max(self._sl_time, when)`, for a deadline below infinity. -/
def jumpTo (time : ℚ) : When → ℚ
  | .fin q => max time q
  | .negInf | .posInf => time

/-- The autojump. The flag is the `DeadlockError`, which leaves the loop with
its cancelled head timers purged. -/
def autojump (l : Loop κ) (stopStep : Bool) : Loop κ × Bool :=
  if l.ready.isEmpty && !stopStep then
    let l := l.purgeCancelledTimers
    match l.timers.head? with
    | some t =>
        if t.when ≠ .posInf then ({ l with time := jumpTo l.time t.when }, false)
        else (l, !l.stopping)
    | none => (l, !l.stopping)
  else (l, false)

/-- `_run_once` up to its batch: the autojump, then the promotion of every
timer now due. `stopStep` is `self._sl_stop_in is not None`. -/
def beginStep (l : Loop κ) (stopStep : Bool) : Loop κ × Bool :=
  match l.autojump stopStep with
  | (l, true) => (l, true)
  | (l, false) => (l.fireDueTimers, false)

/-- The handles that have yet to run: the ready queue, then the heap. -/
def pending (l : Loop κ) : List (Handle κ) :=
  l.ready ++ l.timers.entries.map Timer.handle

/-- The timers a `beginStep` promotes. -/
def promotedAt (l : Loop κ) (stopStep : Bool) : List (Timer κ) :=
  match l.autojump stopStep with
  | (_, true) => []
  | (l, false) => l.promoted

end Loop

end Seedloop
