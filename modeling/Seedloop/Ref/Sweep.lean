import Seedloop.Ref.Annotate
import Seedloop.Ref.Drive

/-!
# One run of a sweep

`_run_one`, past the two checks of `_drive` on what it is given. Each seed has
a world of its own, with streams of its own; what the program keeps outside of
it, and finds there in its next run, is the user state. The shim or the auditor
around the run is in what user code does: entropy it seeds is part of the
scenario's script, and entropy it refuses is an exception there.
-/

namespace Seedloop

open World

/-- A function called with a world: what it leaves outside, and what it raises
or the script its coroutine goes through. -/
abbrev Scenario (μ κ υ ε : Type) : Type :=
  ℤ → υ → υ × Except (Exc ε) (ℕ → List (List (UserOp μ κ υ ε)))

variable {ρ μ κ υ ε : Type} [DecidableEq ε] [Raisable ε] [Random ρ]

/-- `_run_one`; `streams` are `substream(seed, "net")` and
`substream(seed, "faults")`. -/
def runOne (streams : ℤ → ρ × ρ) (maxSteps : Option ℕ) (horizon : ℕ) (main : κ)
    (scenario : Scenario μ κ υ ε) (seed : ℤ) : Run ρ μ κ υ ε Unit := fun w =>
  match scenario seed w.user with
  | (user, .error e) => (.raised e, { w with user := user })
  | (user, .ok script) =>
      drive main (.init (streams seed).1 (streams seed).2 user maxSteps script
        horizon)

end Seedloop
