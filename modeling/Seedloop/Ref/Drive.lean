import Seedloop.Ref.World

/-!
# Driving one run

`World._drive`, its teardown, and the loops of `asyncio` and of the loop class
that they go through. A `finally` block that can raise is `andFinally`, an
`except` clause a match on what `attempt` caught, and the variable `failure` is
what the source has in it at that point.

Every loop is bounded by the step limit: a pass of any of them takes at least
one step or raises, so a loop never gets to its bound. Where there is no limit,
the horizon is the bound.
-/

namespace Seedloop

namespace World

variable {ρ μ κ υ ε : Type} [DecidableEq ε] [Raisable ε] [Random ρ]

/-- The scenario's task: the first one created. -/
def mainTask : ℕ := 0

/-- `_TEARDOWN_STEPS`. -/
def teardownSteps : ℕ := 100000

/-- `_TEARDOWN_STEPS_PER_TASK`. -/
def teardownStepsPerTask : ℕ := 100

/-- `_TEARDOWN_ROUNDS`. -/
def teardownRounds : ℕ := 100

/-- `task.exception()` of a task that is done and not cancelled. -/
def exception? (w : World ρ μ κ υ ε) (task : ℕ) : Option (Exc ε) :=
  match w.tasks[task]? with
  | some ⟨_, some (.raised e), _⟩ => some e
  | _ => none

/-- `_note`. -/
def note (failure : Exc ε) (text : String) : Run ρ μ κ υ ε Unit :=
  Exec.look fun w =>
    if (failure, text) ∈ w.notes then pure ()
    else
      match failure.addNote with
      | .ok () => Exec.update fun w =>
          { w with notes := w.notes ++ [(failure, text)] }
      | .error e => if e.kind = .exception then pure () else noteRaised e

/-- `_note(failure, _describe(error))`. -/
def noteError (failure error : Exc ε) : Run ρ μ κ υ ε Unit :=
  match error.describe with
  | .ok text => note failure text
  | .error e => noteRaised e

/-- `_secondary`. -/
def secondary (failure : Option (Exc ε)) (x : Run ρ μ κ υ ε Unit) :
    Run ρ μ κ υ ε Unit := do
  match ← Exec.attempt x with
  | .ok () => pure ()
  | .error e =>
      if e.kind = .exception then
        match failure with
        | none => Exec.raise e
        | some failure => noteError failure e
      else Exec.raise e

/-- How the two `except` clauses of `_drive` that catch everything note what was
in flight on what has taken its place. -/
def noteReplaced (failure : Option (Exc ε)) (e : Exc ε) :
    Run ρ μ κ υ ε Unit :=
  match failure with
  | some failure => if e ≠ failure then noteError e failure else pure ()
  | none => pure ()

/-! ## The loop -/

/-- How often a loop can go round. -/
def fuel (w : World ρ μ κ υ ε) : ℕ :=
  match w.stepsLeft with
  | some n => n + 1
  | none => w.horizon

/-- `BaseEventLoop.run_forever`. -/
def runForever : Run ρ μ κ υ ε Unit := Exec.look fun w =>
  Exec.andFinally
    (Exec.doUntil (fun w => w.net.loop.stopping) runOnce w.fuel)
    (Exec.update fun w =>
      { w with net := { w.net with
        loop := { w.net.loop with stopping := false } } })

def setWatch (w : World ρ μ κ υ ε) (watch : Option ℕ) (stopIn : Option ℕ)
    (settle : Bool) : World ρ μ κ υ ε :=
  { w with watch := watch, stopIn := stopIn, settle := settle }

/-- `run_until_done`. With `settle`, that is `clearHooks`. -/
def runUntilDone (fut : ℕ) (settle : Bool) : Run ρ μ κ υ ε Unit := do
  Exec.update (·.setWatch (some fut) none settle)
  Exec.andFinally
    (do
      runForever
      Exec.look fun w =>
        if w.done fut ∧ (w.stopIn = some 1 ∨ w.stopIn = some 2) then do
          if w.stopIn = some 2 ∧ settle then Exec.update clearHooks
          else pure ()
          Exec.update fun w => { w with stopIn := some 1 }
          runForever
        else pure ())
    (Exec.update (·.setWatch none none false))

/-- `run_one_more_step`. -/
def runOneMoreStep (fut : ℕ) : Run ρ μ κ υ ε Unit := do
  Exec.update (·.setWatch (some fut) (some 1) false)
  Exec.andFinally runForever (Exec.update (·.setWatch none none false))

/-! ## Teardown -/

/-- `_limit_teardown_steps`. -/
def limitTeardownSteps (w : World ρ μ κ υ ε) (tasks : ℕ) : World ρ μ κ υ ε :=
  w.limitSteps (some (teardownSteps + teardownStepsPerTask * tasks)) .teardown

/-- `asyncio.gather(*pending, return_exceptions=True)`. -/
def gatherTasks (w : World ρ μ κ υ ε) (pending : List ℕ) : World ρ μ κ υ ε :=
  { w with gather := ⟨pending, pending.length, false, false⟩ }

/-- `BaseEventLoop.run_until_complete` of the `gather`. -/
def runUntilComplete : Run ρ μ κ υ ε Unit := do
  Exec.update fun w => { w with gather := { w.gather with stopsLoop := true } }
  Exec.andFinally runForever (Exec.update fun w =>
    { w with gather := { w.gather with stopsLoop := false } })
  Exec.look fun w =>
    if w.gather.done then pure () else Exec.raise (.sys w.steps .loopStopped)

/-- `World._run_until`. -/
def runUntilGathered : Run ρ μ κ υ ε Unit := Exec.look fun w =>
  Exec.whileDo (fun w => !w.gather.done)
    (do
      match ← Exec.attempt runUntilComplete with
      | .ok () => pure ()
      | .error e => Exec.look fun w =>
          if w.gather.done then Exec.raise e
          else
            match e.saysStopped with
            | .ok true => pure ()
            | .ok false => Exec.raise e
            | .error exc => noteRaised exc)
    w.fuel

/-- `pending.sort(key=…)`: by `_sl_seq`, and what is equal in the order in
which it comes. -/
def byCreation (w : World ρ μ κ υ ε) (pending : List ℕ) : List ℕ :=
  pending.mergeSort fun a b =>
    (w.tasks[a]?.map Task.seq).getD (-1) ≤ (w.tasks[b]?.map Task.seq).getD (-1)

/-- One round of `_cancel_everything`, if there is something to cancel, and
the rounds after it; `rounds` of them are left. -/
def cancelRounds : ℕ → Run ρ μ κ υ ε Unit
  | 0 => Exec.look fun w =>
      fail (.sys w.steps (.teardownRounds w.pendingTasks))
  | rounds + 1 => Exec.look fun w =>
      let pending := w.byCreation w.pendingTasks
      if pending.isEmpty then pure ()
      else do
        Exec.update (·.mark (.round pending))
        Exec.update fun w => pending.foldl cancelTask w
        Exec.update (·.limitTeardownSteps pending.length)
        Exec.update (·.gatherTasks pending)
        runUntilGathered
        cancelRounds rounds

/-- `_cancel_everything`. -/
def cancelEverything : Run ρ μ κ υ ε Unit := cancelRounds teardownRounds

/-! ## The drive -/

/-- What the inner `try` runs. -/
def runScenario : Run ρ μ κ υ ε Unit := do
  runUntilDone mainTask true
  Exec.look fun w =>
    if w.done mainTask then pure () else fail (.sys w.steps .loopStopped)

/-- What the scenario raised on its way out. -/
def noteUnwound (failure : Option (Exc ε)) : Run ρ μ κ υ ε Unit :=
  Exec.look fun w =>
    match failure, w.exception? mainTask with
    | some failure, some unwindError =>
        if unwindError ≠ failure then noteError failure unwindError else pure ()
    | _, _ => pure ()

/-- Its `finally` block. -/
def settleScenario (failure : Option (Exc ε)) : Run ρ μ κ υ ε Unit := do
  Exec.update fun w => (w.limitTeardownSteps 0).mark (.settling failure)
  if failure.isSome then Exec.update clearHooks else pure ()
  Exec.look fun w =>
    if !w.done mainTask then do
      Exec.update (·.cancelTask mainTask)
      secondary failure (Exec.look fun w =>
        Exec.whileDo (fun w => !w.done mainTask)
          (runUntilDone mainTask false) w.fuel)
      noteUnwound failure
    else if failure.isSome then secondary failure (runOneMoreStep mainTask)
    else pure ()

/-- The `CancelledError` that the scenario ended with: its task keeps it, and
there is one. -/
def cancelledError : Exc ε := .sys 0 .cancelled

/-- `main_task.result()`. -/
def mainResult : Run ρ μ κ υ ε Unit := Exec.look fun w =>
  match w.tasks[mainTask]? with
  | some ⟨_, some .returned, _⟩ => pure ()
  | some ⟨_, some (.raised e), _⟩ => Exec.raise e
  | some ⟨_, some .cancelled, _⟩ => Exec.raise cancelledError
  | _ => Exec.raise (.sys w.steps .invalidState)

/-- The first failure of a started node. -/
def nodeFailures : Run ρ μ κ υ ε Unit := Exec.look fun w =>
  match w.started.findSome? w.exception? with
  | some e => Exec.raise e
  | none => pure ()

/-- What the outer `try` runs, past its inner `try`. -/
def settleRun (ran : Except (Exc ε) Unit) : Run ρ μ κ υ ε Unit := do
  settleScenario ran.error?
  Exec.reraise ran
  mainResult
  nodeFailures

/-- The same with its `except` clause: what `failure` is then, and what is on
its way. Where the note cannot be put on what was raised, the clause ends there,
and `failure` is still that of the run. -/
def surface (ran : Except (Exc ε) Unit) :
    Run ρ μ κ υ ε (Option (Exc ε) × Except (Exc ε) Unit) := do
  match ← Exec.attempt (settleRun ran) with
  | .ok () => pure (none, .ok ())
  | .error e =>
      match ← Exec.attempt (noteReplaced ran.error? e) with
      | .ok () => pure (some e, .error e)
      | .error exc => pure (ran.error?, .error exc)

/-- The outer `finally` block, less its own. -/
def tearDown (failure : Option (Exc ε)) : Run ρ μ κ υ ε Unit := do
  match ← Exec.attempt (do
    if failure.isSome then Exec.update clearHooks else pure ()
    Exec.update fun w => mark { w with tearingDown := true }
      (.tearingDown failure w.pendingTasks)
    secondary failure cancelEverything) with
  | .ok () => pure ()
  | .error interrupt => do
      noteReplaced failure interrupt
      Exec.raise interrupt

/-- `_drive`, past the two checks on how it is called. -/
def drive (main : κ) : Run ρ μ κ υ ε Unit := do
  Exec.update fun w => w.limitSteps w.maxSteps .livelock
  Exec.update (·.createTask true main)
  let ran ← Exec.attempt runScenario
  let (failure, surfaced) ← surface ran
  Exec.andFinally (tearDown failure)
    (Exec.update fun w => { w with closed := true })
  Exec.reraise surfaced

end World

end Seedloop
