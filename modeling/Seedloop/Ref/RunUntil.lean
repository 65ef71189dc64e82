import Seedloop.Ref.World

/-!
# `run_until` as it raises

A world has `run_until` without what it raises: a call that is refused does
nothing, and the way out of one that is not, is a function. Here are its two
guards with their errors, and its `finally` block step by step, where
`list.remove` raises a `ValueError` if the hook is not in the list.
-/

namespace Seedloop

/-- What `run_until` refuses a call with: two `SeedloopError`s, and the
`OverflowError` of `math.isfinite`. -/
inductive RunUntilError where
  | concurrent
  | overflow
  | deadline (x : Num)
  deriving DecidableEq

/-- `repr` is `float.__repr__`, or that of an `int`. -/
def RunUntilError.message (repr : Num → String) : RunUntilError → String
  | .concurrent => "run_until does not support concurrent or nested calls"
  | .overflow => "int too large to convert to float"
  | .deadline x => "deadline must be a finite number or None, got " ++ repr x

namespace World

variable {ρ μ κ υ ε : Type}

/-- The guards of `run_until`: the deadline with its value, if there is one. -/
def runUntilGuards (w : World ρ μ κ υ ε) (deadline : Option Num) :
    Except RunUntilError (Option (Num × ℚ)) :=
  if w.runUntilActive then .error .concurrent
  else
    match deadline with
    | none => .ok none
    | some d =>
        match d.isFinite?, d.value? with
        | none, _ => .error .overflow
        | some true, some x => .ok (some (d, x))
        | _, _ => .error (.deadline d)

/-- `self._loop._sl_after_step_hooks.remove(hook)`. -/
def removeHook (valueError : Exc ε) (hook : Hook) : Run ρ μ κ υ ε Unit :=
  Exec.look fun w =>
    if hook ∈ w.hooks then
      Exec.update fun w => { w with hooks := w.hooks.erase hook }
    else Exec.raise valueError

/-- `timer.cancel()`. -/
def cancelTimer (timer : ℕ) : Run ρ μ κ υ ε Unit := Exec.update fun w =>
  { w with net := { w.net with loop := w.net.loop.cancel timer } }

/-- The `finally` block of the `run_until` that `r` is. -/
def runUntilFinally (valueError : Exc ε) (r : RunUntil μ κ υ ε) :
    Run ρ μ κ υ ε Unit := do
  Exec.look fun w =>
    if .check r.call ∈ w.hooks then removeHook valueError (.check r.call)
    else pure ()
  match r.timer with
  | some timer => cancelTimer timer
  | none => pure ()
  Exec.update fun w => { w with runUntilActive := false, runUntil := none }

end World

end Seedloop
