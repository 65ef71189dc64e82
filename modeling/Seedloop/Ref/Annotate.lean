import Seedloop.Ref.World

/-!
# Annotating a failure

The places outside `_drive` where a note is put on an exception that is on its
way: the after-step hooks of a step, `check` and `given_seed`. The hooks are
any computations here; those of a `World` are two kinds of them.

`add_note` and `__repr__` are methods of the exception's class, and what they
raise is raised where they are called. `check` suppresses that and the other two
do not.
-/

namespace Seedloop

namespace World

variable {ρ μ κ υ ε : Type} [Raisable ε]

/-- `_sl_after_step_hooks` has callables: each returns nothing, returns an
exception, or raises one. -/
abbrev StepHook (ρ μ κ υ ε : Type) : Type := Run ρ μ κ υ ε (Option (Exc ε))

/-- `failure.add_note(text)`. -/
def addNote (failure : Exc ε) (text : String) : Run ρ μ κ υ ε Unit :=
  match failure.addNote with
  | .ok () => Exec.update fun w =>
      { w with notes := w.notes ++ [(failure, text)] }
  | .error e => Exec.raise e

/-- `contextlib.suppress(Exception)`. -/
def suppress (x : Run ρ μ κ υ ε Unit) : Run ρ μ κ υ ε Unit := do
  match ← Exec.attempt x with
  | .ok () => pure ()
  | .error e => if e.kind = .exception then pure () else Exec.raise e

/-! ## The end of `_run_once` -/

/-- `for hook in self._sl_after_step_hooks`. -/
def collect : List (StepHook ρ μ κ υ ε) → Option (Exc ε) → List (Exc ε) →
    Run ρ μ κ υ ε (Option (Exc ε) × List (Exc ε))
  | [], first, notes => pure (first, notes)
  | hook :: hooks, first, notes => do
      match ← Exec.attempt hook with
      | .ok none => collect hooks first notes
      | .ok (some soft) => collect hooks first (notes ++ [soft])
      | .error exc =>
          if exc.kind = .exception then
            match first with
            | none => collect hooks (some exc) notes
            | some first => collect hooks (some first) (notes ++ [exc])
          else Exec.raise exc

/-- `first.add_note(f"another after-step check also failed this step: …")`. -/
def stepNote (first note : Exc ε) : Run ρ μ κ υ ε Unit :=
  match note.repr with
  | .ok text => addNote first
      ("another after-step check also failed this step: " ++ text)
  | .error e => Exec.raise e

def stepHooks (hooks : List (StepHook ρ μ κ υ ε)) : Run ρ μ κ υ ε Unit := do
  match ← collect hooks none [] with
  | (none, _) => pure ()
  | (some first, notes) => do
      Exec.forEach (stepNote first) notes
      Exec.raise first

end World

/-! ## Sweeping seeds -/

open World

/-- `on_failure`. -/
inductive OnFailure where
  | raise
  | return_
  deriving DecidableEq

structure CheckResult (ε : Type) where
  checked : ℕ
  failingSeed : Option ℤ
  error : Option (Exc ε)

section

variable {ρ μ κ υ ε : Type} [Raisable ε] (isUsageError : Exc ε → Bool)

/-- The loop of `check`; `run` is `_run_one` on a seed. -/
def check (run : ℤ → Run ρ μ κ υ ε Unit) (onFailure : OnFailure) :
    List ℤ → ℕ → Run ρ μ κ υ ε (CheckResult ε)
  | [], checked => pure ⟨checked, none, none⟩
  | seed :: seeds, checked => do
      match ← Exec.attempt (run seed) with
      | .ok () => check run onFailure seeds (checked + 1)
      | .error error =>
          if isUsageError error then Exec.raise error
          else if error.kind = .exception then do
            suppress (addNote error ("seedloop: failing seed=" ++ toString seed
              ++ " (replay with seedloop.replay)"))
            match onFailure with
            | .raise => Exec.raise error
            | .return_ => pure ⟨checked + 1, some seed, some error⟩
          else Exec.raise error

/-- `annotated` of `given_seed`. -/
def annotated (test : ℤ → Run ρ μ κ υ ε Unit) (seed : ℤ) :
    Run ρ μ κ υ ε Unit := do
  match ← Exec.attempt (test seed) with
  | .ok () => pure ()
  | .error exc =>
      if isUsageError exc then Exec.raise exc
      else if exc.kind = .exception then do
        addNote exc ("seedloop: reproduce with seedloop.replay(scenario, seed="
          ++ toString seed ++ ")")
        Exec.raise exc
      else Exec.raise exc

end

end Seedloop
