import Seedloop.Lib.Exec
import Seedloop.Ref.Sim

/-!
# The world: tasks, after-step checks, one loop step

`World` and the half of `DeterministicLoop` that `_drive` works with. What user
code does is given from outside: a script has an entry for each step of the
loop, and the entry has a turn for each handle that runs in that step — the
operations user code goes through in it, and asyncio on its behalf. So a run
ranges over every program. A run whose steps nothing limits need not end; it is
looked at up to a horizon.

A task is what can be told from outside: whether it is done and how, and what
cancelling it makes ready, which is set by what it awaits. Its steps are turns.
An exception has an identity of its own: user code's are what it raises, and one
that the library makes is known by the step it is made in, since no step makes
two alike. What an exception does when its text is asked for or a note is put on
it, is up to its class: it may raise any other, an interrupt included.

The log is not in the source. It says what happened, in order, for statements
to be about.
-/

namespace Seedloop

/-- How `except` clauses tell exceptions apart: an `Exception`, a
`KeyboardInterrupt` or `SystemExit`, or another `BaseException`. -/
inductive Kind where
  | exception
  | interrupt
  | other
  deriving DecidableEq

/-- The exceptions the library makes, and asyncio for it. -/
inductive SysError where
  | invariant (name : String) (time : ℚ)
  | deadlock (blocked : List ℕ)
  | livelock (maxSteps : ℕ) (time : ℚ) (running : List ℕ)
  | teardown (running : List ℕ)
  | teardownRounds (running : List ℕ)
  | loopStopped
  | timeout (deadline : Num)
  | cancelled
  | invalidState
  deriving DecidableEq

def SysError.kind : SysError → Kind
  | .cancelled => .other
  | _ => .exception

/-- `type(error).__name__`. -/
def SysError.typeName : SysError → String
  | .invariant _ _ => "InvariantError"
  | .deadlock _ => "DeadlockError"
  | .livelock _ _ _ => "LivelockError"
  | .teardown _ => "TeardownError"
  | .teardownRounds _ => "TeardownError"
  | .loopStopped => "RuntimeError"
  | .timeout _ => "TimeoutError"
  | .cancelled => "CancelledError"
  | .invalidState => "InvalidStateError"

/-- What is asked of an exception of user code. `__str__`, `__repr__` and
`add_note` can raise something else instead. `text` and `textRepr` are the texts
of the library's own. -/
class Raisable (ε : Type) where
  kind : ε → Kind
  /-- Which of the `Exception`s are a `RuntimeError`. -/
  isRuntimeError : ε → Bool
  typeName : ε → String
  str : ε → Except ε String
  repr : ε → Except ε String
  addNote : ε → Except ε Unit
  text : SysError → String
  textRepr : SysError → String

/-- An exception object. -/
inductive Exc (ε : Type) where
  | user (e : ε)
  | sys (step : ℕ) (error : SysError)
  deriving DecidableEq

/-- Exceptions of builtin classes, which do what `BaseException` does. -/
inductive Plain where
  | exception (k : ℕ)
  | keyboardInterrupt (k : ℕ)
  | baseException (k : ℕ)
  deriving DecidableEq

instance : Raisable Plain where
  kind
    | .exception _ => .exception
    | .keyboardInterrupt _ => .interrupt
    | .baseException _ => .other
  isRuntimeError _ := false
  typeName
    | .exception _ => "Exception"
    | .keyboardInterrupt _ => "KeyboardInterrupt"
    | .baseException _ => "BaseException"
  str
    | .exception k | .keyboardInterrupt k | .baseException k =>
        .ok (toString k)
  repr
    | .exception k => .ok ("Exception(" ++ toString k ++ ")")
    | .keyboardInterrupt k => .ok ("KeyboardInterrupt(" ++ toString k ++ ")")
    | .baseException k => .ok ("BaseException(" ++ toString k ++ ")")
  addNote _ := .ok ()
  text := SysError.typeName
  textRepr := SysError.typeName

namespace Exc

variable {ε : Type} [Raisable ε]

def kind : Exc ε → Kind
  | .user e => Raisable.kind e
  | .sys _ error => error.kind

def typeName : Exc ε → String
  | .user e => Raisable.typeName e
  | .sys _ error => error.typeName

def str : Exc ε → Except (Exc ε) String
  | .user e => (Raisable.str e).mapError .user
  | .sys _ error => .ok (Raisable.text ε error)

def repr : Exc ε → Except (Exc ε) String
  | .user e => (Raisable.repr e).mapError .user
  | .sys _ error => .ok (Raisable.textRepr ε error)

def addNote : Exc ε → Except (Exc ε) Unit
  | .user e => (Raisable.addNote e).mapError .user
  | .sys _ _ => .ok ()

/-- Whether `except RuntimeError` catches it, and finds
`"stopped before Future completed" in str(exc)`. -/
def saysStopped : Exc ε → Except (Exc ε) Bool
  | .user e =>
      if Raisable.kind e = .exception ∧ Raisable.isRuntimeError e then
        (Exc.user e).str.map fun text => decide
          ("stopped before Future completed".toList <:+: text.toList)
      else .ok false
  | .sys _ .loopStopped => .ok true
  | .sys _ _ => .ok false

/-- `_describe`. -/
def describe (e : Exc ε) : Except (Exc ε) String :=
  match e.str with
  | .ok text => .ok ("seedloop: " ++ e.typeName ++ ": " ++ text)
  | .error exc =>
      if exc.kind = .exception then .ok ("seedloop: " ++ e.typeName)
      else .error exc

end Exc

/-- How a task ended. -/
inductive Outcome (ε : Type) where
  | returned
  | raised (e : Exc ε)
  | cancelled
  deriving DecidableEq

/-- What the cancellation of a task reaches: a future whose callbacks are made
ready, or that of the active `run_until`. -/
inductive Wake (κ : Type) where
  | ready (k : κ)
  | runUntil

/-- `asyncio.Task`. `seq` is `_sl_seq`, or what the sort takes for it. -/
structure Task (κ ε : Type) where
  seq : ℤ
  outcome : Option (Outcome ε)
  onCancel : List (Wake κ)

/-- What a handle runs that the network does not look into: user code, the
callbacks of `gather` and of `run_until_complete`, and the timer of a
`run_until`, which does nothing. -/
inductive Job (κ : Type) where
  | user (k : κ)
  | gatherChild
  | stopLoop
  | deadline

/-- What a predicate can see. -/
structure View (μ υ : Type) where
  now : ℚ
  timeline : List (ℚ × Event μ)
  user : υ

inductive Check (ε : Type) where
  | holds
  | fails
  | raises (e : Exc ε)

/-- A predicate: pure and read-only. -/
def Predicate (μ υ ε : Type) : Type := View μ υ → Check ε

/-- How the future of a `run_until` was resolved. -/
inductive Decision (ε : Type) where
  | held
  | raised (e : Exc ε)
  | cancelled

/-- A call of `run_until` that was accepted. -/
structure RunUntil (μ κ υ ε : Type) where
  call : ℕ
  predicate : Predicate μ υ ε
  deadline : Option Num
  deadlineAt : Option ℚ
  timer : Option ℕ
  k : κ
  awaited : Bool
  done : Option (Decision ε)

/-- An entry of `_sl_after_step_hooks`. -/
inductive Hook where
  | checkInvariants
  | check (call : ℕ)
  deriving DecidableEq

/-- `_sl_step_error`. -/
inductive StepError where
  | livelock
  | teardown

/-- What happened. A step has a beginning, unless the limit is reached, and
the end of its batch, unless that is cut short; `checkFailed` is an after-step
check, `failed` the loop or the drive. -/
inductive Mark (μ υ ε : Type) where
  | always (name : String) (predicate : Predicate μ υ ε)
  | installed
  | cleared
  | evaluated (name : String)
  | stepBegin
  | stepEnd (view : View μ υ)
  | stop
  | started (task : ℕ)
  | finished (task : ℕ) (outcome : Outcome ε)
  | checkFailed (e : Exc ε)
  | failed (e : Exc ε)
  | interrupted (e : Exc ε)
  | noteRaised (e : Exc ε)
  | settling (failure : Option (Exc ε))
  | tearingDown (failure : Option (Exc ε)) (pending : List ℕ)
  | round (cancelled : List ℕ)

/-- What user code can do, and asyncio for it. -/
inductive UserOp (μ κ υ ε : Type) where
  | net (o : Op μ κ)
  | set (user : υ)
  | always (name : String) (predicate : Predicate μ υ ε)
  | runUntil (predicate : Predicate μ υ ε) (deadline : Option Num) (k : κ)
  | endRunUntil
  | createTask (stamped : Bool) (k : κ)
  | start (k : κ)
  | finish (task : ℕ) (outcome : Outcome ε)
  | await (task : ℕ) (onCancel : List (Wake κ))
  | cancelTask (task : ℕ)
  | interrupt (e : Exc ε)

/-- The future of the `gather` of a teardown round, and whether
`run_until_complete` has its callback on it. -/
structure Gather where
  children : List ℕ
  outstanding : ℕ
  done : Bool
  stopsLoop : Bool

/-- `World`, and what `DeterministicLoop` and `BaseEventLoop` have for it. -/
structure World (ρ μ κ υ ε : Type) where
  net : Net ρ μ (Job κ)
  user : υ
  tasks : List (Task κ ε)
  taskSeq : ℤ
  started : List ℕ
  invariants : List (String × Predicate μ υ ε)
  invariantsHookInstalled : Bool
  runUntilActive : Bool
  runUntil : Option (RunUntil μ κ υ ε)
  nextCall : ℕ
  tearingDown : Bool
  maxSteps : Option ℕ
  hooks : List Hook
  watch : Option ℕ
  stopIn : Option ℕ
  settle : Bool
  stepsLeft : Option ℕ
  stepError : StepError
  gather : Gather
  notes : List (Exc ε × String)
  steps : ℕ
  closed : Bool
  script : ℕ → List (List (UserOp μ κ υ ε))
  horizon : ℕ
  log : List (Mark μ υ ε)

/-- The same operation on the loop of a world. -/
def Op.map {μ κ υ : Type} (f : κ → υ) : Op μ κ → Op μ υ
  | .callSoon k => .callSoon (f k)
  | .callAt when k => .callAt when (f k)
  | .callLater delay k => .callLater delay (f k)
  | .cancel handle => .cancel handle
  | .stop => .stop
  | .record event => .record event
  | .bind address reliable loss duplicate =>
      .bind address reliable loss duplicate
  | .partition groups => .partition groups
  | .heal => .heal
  | .send src dst msg => .send src dst msg
  | .recv address task mustCancel => .recv address task mustCancel
  | .cancelRecv address task => .cancelRecv address task
  | .resumeRecv address task => .resumeRecv address task
  | .runFor seconds faults fuel k => .runFor seconds faults fuel (f k)
  | .cancelRunFor fut => .cancelRunFor fut

namespace World

variable {ρ μ κ υ ε : Type}

/-- A computation of the library on a world. -/
abbrev Run (ρ μ κ υ ε α : Type) : Type := Exec (World ρ μ κ υ ε) (Exc ε) α

def init (netRng faultsRng : ρ) (user : υ) (maxSteps : Option ℕ)
    (script : ℕ → List (List (UserOp μ κ υ ε))) (horizon : ℕ) :
    World ρ μ κ υ ε where
  net := .init netRng faultsRng
  user := user
  tasks := []
  taskSeq := 0
  started := []
  invariants := []
  invariantsHookInstalled := false
  runUntilActive := false
  runUntil := none
  nextCall := 0
  tearingDown := false
  maxSteps := maxSteps
  hooks := []
  watch := none
  stopIn := none
  settle := false
  stepsLeft := none
  stepError := .livelock
  gather := ⟨[], 0, true, false⟩
  notes := []
  steps := 0
  closed := false
  script := script
  horizon := horizon
  log := []

def view (w : World ρ μ κ υ ε) : View μ υ :=
  ⟨w.net.loop.time, w.net.timeline, w.user⟩

def mark (w : World ρ μ κ υ ε) (m : Mark μ υ ε) : World ρ μ κ υ ε :=
  { w with log := w.log ++ [m] }

def callSoon (w : World ρ μ κ υ ε) (job : Job κ) : World ρ μ κ υ ε :=
  { w with net := { w.net with loop := w.net.loop.callSoon (.user job) } }

/-- `task.done()`, and `False` for a task that there is not. -/
def done (w : World ρ μ κ υ ε) (task : ℕ) : Bool :=
  match w.tasks[task]? with
  | some t => t.outcome.isSome
  | none => false

/-- `[t for t in asyncio.all_tasks(loop) if not t.done()]`. -/
def pendingTasks (w : World ρ μ κ υ ε) : List ℕ :=
  (List.range w.tasks.length).filter fun task => !w.done task

/-! ## Tasks -/

/-- `DeterministicLoop.create_task`, and `asyncio.Task` without its stamp. -/
def createTask (w : World ρ μ κ υ ε) (stamped : Bool) (k : κ) :
    World ρ μ κ υ ε :=
  callSoon { w with
    tasks := w.tasks ++ [⟨if stamped then w.taskSeq else -1, none, []⟩]
    taskSeq := if stamped then w.taskSeq + 1 else w.taskSeq } (.user k)

/-- `World.start`, for one node. -/
def start (w : World ρ μ κ υ ε) (k : κ) : World ρ μ κ υ ε :=
  let w := mark { w with started := w.started ++ [w.tasks.length] }
    (.started w.tasks.length)
  w.createTask true k

/-- A task is done: a `gather` that waits for it will see that. -/
def finishTask (w : World ρ μ κ υ ε) (task : ℕ) (outcome : Outcome ε) :
    World ρ μ κ υ ε :=
  let w := mark { w with
    tasks := w.tasks.modify task fun t => { t with outcome := some outcome } }
    (.finished task outcome)
  if task ∈ w.gather.children then w.callSoon .gatherChild else w

/-- `future.cancel()` on the future of the active `run_until`. -/
def cancelRunUntil (w : World ρ μ κ υ ε) : World ρ μ κ υ ε :=
  match w.runUntil with
  | some r =>
      if r.done.isSome then w
      else callSoon { w with
        runUntil := some { r with done := some .cancelled } } (.user r.k)
  | none => w

def wake (w : World ρ μ κ υ ε) : Wake κ → World ρ μ κ υ ε
  | .ready k => w.callSoon (.user k)
  | .runUntil => w.cancelRunUntil

/-- `task.cancel()`. -/
def cancelTask (w : World ρ μ κ υ ε) (task : ℕ) : World ρ μ κ υ ε :=
  match w.tasks[task]? with
  | some t =>
      if t.outcome.isSome then w
      else t.onCancel.foldl wake { w with
        tasks := w.tasks.modify task fun t => { t with onCancel := [] } }
  | none => w

/-! ## Properties and predicates -/

/-- `World.always`. -/
def always (w : World ρ μ κ υ ε) (name : String)
    (predicate : Predicate μ υ ε) : World ρ μ κ υ ε :=
  if w.tearingDown then w
  else
    let w := { w with invariants := w.invariants ++ [(name, predicate)] }
    let w := if w.invariantsHookInstalled then w
      else mark { w with
        hooks := w.hooks ++ [.checkInvariants]
        invariantsHookInstalled := true } .installed
    w.mark (.always name predicate)

/-- `loop._sl_after_step_hooks.clear()`. -/
def clearHooks (w : World ρ μ κ υ ε) : World ρ μ κ υ ε :=
  mark { w with hooks := [] } .cleared

/-- `done.set_result` and `done.set_exception`. -/
def resolve (w : World ρ μ κ υ ε) (r : RunUntil μ κ υ ε) (d : Decision ε) :
    World ρ μ κ υ ε :=
  let w := { w with runUntil := some { r with done := some d } }
  if r.awaited then w.callSoon (.user r.k) else w

section

variable [Raisable ε]

/-- An error of the loop or of the drive. -/
def fail {α : Type} (e : Exc ε) : Run ρ μ κ υ ε α := do
  Exec.update (·.mark (.failed e))
  Exec.raise e

/-- An interrupt, on its way out. -/
def interrupt {α : Type} (e : Exc ε) : Run ρ μ κ υ ε α := do
  Exec.update (·.mark (.interrupted e))
  Exec.raise e

/-- What came of asking an exception for its text, or of putting a note on it. -/
def noteRaised {α : Type} (e : Exc ε) : Run ρ μ κ υ ε α := do
  Exec.update (·.mark (.noteRaised e))
  Exec.raise e

/-- `_check_invariants`. -/
def checkInvariants : Run ρ μ κ υ ε Unit :=
  Exec.look fun w => w.invariants |> Exec.forEach fun (name, predicate) =>
    Exec.look fun w => do
      Exec.update (·.mark (.evaluated name))
      match predicate w.view with
      | .holds => pure ()
      | .fails => Exec.raise (.sys w.steps (.invariant name w.net.loop.time))
      | .raises e => Exec.raise e

/-- The `check` of a `run_until`: what it returns, less what it raises. -/
def check (call : ℕ) : Run ρ μ κ υ ε (Option (Exc ε)) :=
  Exec.look fun w =>
    match w.runUntil with
    | none => pure none
    | some r =>
        if r.call ≠ call ∨ r.done.isSome then pure none
        else
          match r.predicate w.view with
          | .raises e =>
              if e.kind = .exception then do
                Exec.update (·.resolve r (.raised e))
                pure (some e)
              else Exec.raise e
          | .holds => do
              Exec.update (·.resolve r .held)
              pure none
          | .fails =>
              match r.deadline, r.deadlineAt with
              | some deadline, some deadlineAt =>
                  if deadlineAt ≤ w.net.loop.time then do
                    Exec.update (·.resolve r
                      (.raised (.sys w.steps (.timeout deadline))))
                    pure none
                  else pure none
              | _, _ => pure none

/-- The `finally` of `run_until`. -/
def endRunUntil (w : World ρ μ κ υ ε) : World ρ μ κ υ ε :=
  match w.runUntil with
  | none => w
  | some r =>
      let w := { w with
        hooks := w.hooks.erase (.check r.call)
        runUntil := none
        runUntilActive := false }
      match r.timer with
      | none => w
      | some timer =>
          { w with net := { w.net with loop := w.net.loop.cancel timer } }

/-- `run_until` up to its `await`, past its two guards. -/
def startRunUntil (predicate : Predicate μ υ ε)
    (deadline : Option (Num × ℚ)) (k : κ) : Run ρ μ κ υ ε Unit :=
  Exec.look fun w => do
    let deadlineAt := deadline.map fun d => w.net.loop.time + d.2
    Exec.update fun w =>
      let timer := deadlineAt.map fun _ => w.net.loop.nextHandle
      { w with
        runUntilActive := true
        runUntil := some ⟨w.nextCall, predicate, deadline.map Prod.fst,
          deadlineAt, timer, k, false, none⟩
        nextCall := w.nextCall + 1
        hooks := w.hooks ++ [.check w.nextCall]
        net := match deadlineAt with
          | some t => w.net.callAt t (.user .deadline)
          | none => w.net }
    let checked ← Exec.attempt (check w.nextCall)
    Exec.update fun w =>
      match checked, w.runUntil with
      | .ok _, some r =>
          if r.done.isSome then w.endRunUntil
          else { w with runUntil := some { r with awaited := true } }
      | _, _ => w.endRunUntil

/-- `World.run_until` up to its `await`. A call that is not accepted raises,
and what comes of that is up to the caller. -/
def callRunUntil (predicate : Predicate μ υ ε) (deadline : Option Num)
    (k : κ) : Run ρ μ κ υ ε Unit :=
  Exec.look fun w =>
    if w.runUntilActive then pure ()
    else
      match deadline with
      | none => startRunUntil predicate none k
      | some d =>
          match d.isFinite?, d.value? with
          | some true, some x => startRunUntil predicate (some (d, x)) k
          | _, _ => pure ()

/-! ## User code -/

variable [Random ρ]

/-- One operation of user code. One that cannot happen is left out, and only
an interrupt gets out of the loop's handles. -/
def userOp : UserOp μ κ υ ε → Run ρ μ κ υ ε Unit
  | .net o => Exec.update fun w =>
      match w.net.op (o.map .user) with
      | none => w
      | some (net, _) =>
          let w := { w with net := net }
          match o with
          | .stop => w.mark .stop
          | _ => w
  | .set user => Exec.update fun w => { w with user := user }
  | .always name predicate => Exec.update (·.always name predicate)
  | .runUntil predicate deadline k => callRunUntil predicate deadline k
  | .endRunUntil => Exec.update endRunUntil
  | .createTask stamped k => Exec.update (·.createTask stamped k)
  | .start k => Exec.update (·.start k)
  | .finish task outcome => Exec.look fun w =>
      if task < w.tasks.length ∧ w.done task = false then do
        Exec.update (·.finishTask task outcome)
        match outcome with
        | .raised e => if e.kind = .interrupt then interrupt e else pure ()
        | _ => pure ()
      else pure ()
  | .await task onCancel => Exec.update fun w =>
      { w with
        tasks := w.tasks.modify task fun t => { t with onCancel := onCancel } }
  | .cancelTask task => Exec.update (·.cancelTask task)
  | .interrupt e => if e.kind = .interrupt then interrupt e else pure ()

/-- The callback of `gather` on a child. -/
def gatherChild (w : World ρ μ κ υ ε) : World ρ μ κ υ ε :=
  let outstanding := w.gather.outstanding - 1
  if outstanding = 0 then
    let w := { w with gather := { w.gather with
      outstanding := 0, done := true } }
    if w.gather.stopsLoop then w.callSoon .stopLoop else w
  else { w with gather := { w.gather with outstanding := outstanding } }

/-- `loop.stop()`. -/
def stopLoop (w : World ρ μ κ υ ε) : World ρ μ κ υ ε :=
  { w with net := { w.net with loop := w.net.loop.stop } }

/-- `handle._run()`, with what user code makes of it. -/
def runJob (c : Callback μ (Job κ)) (turn : List (UserOp μ κ υ ε)) :
    Run ρ μ κ υ ε Unit :=
  match c with
  | .user .gatherChild => Exec.update gatherChild
  | .user .stopLoop => Exec.update fun w => w.stopLoop.mark .stop
  | .user .deadline => pure ()
  | c => do
      Exec.update fun w => { w with net := w.net.runCallback c }
      Exec.forEach userOp turn

/-- The batch of a step: `n` handles, with the turns user code takes. -/
def runBatch : ℕ → List (List (UserOp μ κ υ ε)) → Run ρ μ κ υ ε Unit
  | 0, _ => pure ()
  | n + 1, turns => Exec.look fun w =>
      match w.net.loop.ready with
      | [] => pure ()
      | h :: ready => do
          Exec.update fun w =>
            { w with net := { w.net with
              loop := { w.net.loop with ready := ready } } }
          if w.net.loop.isCancelled h then runBatch n turns
          else do
            runJob h.callback (turns.headD [])
            runBatch n turns.tail

/-! ## A step of the loop -/

/-- `limit_steps`. -/
def limitSteps (w : World ρ μ κ υ ε) (steps : Option ℕ) (error : StepError) :
    World ρ μ κ υ ε :=
  { w with stepsLeft := steps, stepError := error }

/-- `_livelock_error` and `_teardown_error`. -/
def makeStepError (w : World ρ μ κ υ ε) : SysError :=
  match w.stepError with
  | .livelock =>
      .livelock (w.maxSteps.getD 0) w.net.loop.time w.pendingTasks
  | .teardown => .teardown w.pendingTasks

/-- The step limit. -/
def takeStep : Run ρ μ κ υ ε Unit := Exec.look fun w => do
  Exec.update fun w => { w with steps := w.steps + 1 }
  match w.stepsLeft with
  | none => Exec.update (·.mark .stepBegin)
  | some 0 => fail (.sys w.steps w.makeStepError)
  | some (n + 1) =>
      Exec.update fun w => mark { w with stepsLeft := some n } .stepBegin

/-- The autojump, the `DeadlockError` and `_fire_due_timers`. -/
def beginStep : Run ρ μ κ υ ε Unit := Exec.look fun w =>
  match w.net.loop.beginStep w.stopIn.isSome with
  | (loop, deadlock) => do
      Exec.update fun w => { w with net := { w.net with loop := loop } }
      if deadlock then fail (.sys w.steps (.deadlock w.pendingTasks))
      else pure ()

/-- The batch of this step. -/
def takeTurns : Run ρ μ κ υ ε Unit := Exec.look fun w =>
  runBatch w.net.loop.ready.length (w.script w.steps)

def runHook : Hook → Run ρ μ κ υ ε (Option (Exc ε))
  | .checkInvariants => do
      checkInvariants
      pure none
  | .check call => check call

/-- The hooks of a step: the first failure, and the others. -/
def runHooks : List Hook → Option (Exc ε) → List (Exc ε) →
    Run ρ μ κ υ ε (Option (Exc ε) × List (Exc ε))
  | [], first, notes => pure (first, notes)
  | hook :: hooks, first, notes => do
      match ← Exec.attempt (runHook hook) with
      | .ok none => runHooks hooks first notes
      | .ok (some soft) => runHooks hooks first (notes ++ [soft])
      | .error e =>
          if e.kind = .exception then
            match first with
            | none => do
                Exec.update (·.mark (.checkFailed e))
                runHooks hooks (some e) notes
            | some first => runHooks hooks (some first) (notes ++ [e])
          else if e.kind = .interrupt then interrupt e
          else do
            Exec.update (·.mark (.checkFailed e))
            Exec.raise e

/-- `first.add_note(f"another after-step check also failed this step: …")`. -/
def addStepNote (first note : Exc ε) : Run ρ μ κ υ ε Unit :=
  match note.repr, first.addNote with
  | .ok text, .ok () => Exec.update fun w =>
      { w with notes := w.notes ++ [(first,
        "another after-step check also failed this step: " ++ text)] }
  | .error e, _ | .ok _, .error e => noteRaised e

def afterStep : Run ρ μ κ υ ε Unit := Exec.look fun w => do
  Exec.update (·.mark (.stepEnd w.view))
  match ← runHooks w.hooks none [] with
  | (none, _) => pure ()
  | (some first, notes) => do
      Exec.forEach (addStepNote first) notes
      Exec.raise first

/-- What the end of a step does to the watch. -/
def countStop (w : World ρ μ κ υ ε) : World ρ μ κ υ ε :=
  match w.watch with
  | none => w
  | some watch =>
      match w.stopIn with
      | none => if w.done watch then { w with stopIn := some 2 } else w
      | some n =>
          let w := { w with stopIn := some (n - 1) }
          let w := if n - 1 = 1 ∧ w.settle then w.clearHooks else w
          if n - 1 = 0 then w.stopLoop else w

/-- `_run_once`. -/
def runOnce : Run ρ μ κ υ ε Unit := do
  takeStep
  beginStep
  takeTurns
  afterStep
  Exec.update countStop

end

end World

end Seedloop
