import Seedloop.Lib.Machine
import Seedloop.Ref.RunFor

/-!
# What can happen to the network

Two machines on one state. `Net.step` is the loop's own: promotion and the
ready queue decide what runs next, and between any two of its moves user code
may do anything it has an operation for. `Net.freeStep` is the network without
a loop to order it: any pending handle may fire, the fault callbacks may be
called at any time, and the clock may say anything. Every move of the first is
one of the second, so what is proved of the free machine needs no order at
all.

A callback of user code is not run here. It is the operations that follow it,
whatever they are, so a run ranges over every program.
-/

namespace Seedloop

/-- What user code can do to the network and the loop. -/
inductive Op (μ υ : Type) where
  | callSoon (k : υ)
  | callAt (when : Num) (k : υ)
  | callLater (delay : Num) (k : υ)
  | cancel (handle : ℕ)
  | stop
  | record (event : μ)
  | bind (address : Address) (reliable : Bool) (loss duplicate : Num)
  | partition (groups : List (Finset Address))
  | heal
  | send (src dst : Address) (msg : μ)
  | recv (address : Address) (task : ℕ) (mustCancel : Bool)
  | cancelRecv (address : Address) (task : ℕ)
  | resumeRecv (address : Address) (task : ℕ)
  | runFor (seconds : Num) (faults : List Fault) (fuel : ℕ) (k : υ)
  | cancelRunFor (fut : ℕ)

/-- What an operation answers. -/
inductive Reply (μ : Type) where
  | done
  | handle (id : ℕ)
  | error (e : ApiError)
  | recv (out : RecvOutcome μ)
  deriving DecidableEq

/-- One move of the loop, or one operation of user code. -/
inductive Act (μ υ : Type) where
  | op (o : Op μ υ)
  | beginStep (stopStep : Bool)
  | runReady
  | clearStop

/-- One move with nothing to order it. -/
inductive FreeAct (μ υ : Type) where
  | act (a : Act μ υ)
  | fault (c : FaultCallback)
  | fire (handle : ℕ)
  | setClock (time : ℚ)

namespace Net

variable {ρ μ υ : Type}

/-- `call_at` by user code, `NaN` check included. -/
def userCallAt (s : Net ρ μ υ) (when : Num) (k : υ) :
    Net ρ μ υ × Reply μ :=
  match checkWhen when with
  | .error e => (s, .error e)
  | .ok w =>
      ({ s with
          loop := s.loop.callAt w (.user k)
          owned := insert s.loop.nextHandle s.owned },
        .handle s.loop.nextHandle)

/-- `call_later` by user code. -/
def userCallLater (s : Net ρ μ υ) (delay : Num) (k : υ) :
    Net ρ μ υ × Reply μ :=
  match delay.after s.loop.time with
  | none => (s, .error .intTooLarge)
  | some when => s.userCallAt when k

/-- A move of the receive side of one endpoint. -/
def inboxAct (s : Net ρ μ υ) (address : Address) (a : Inbox.Act μ) :
    Option (Net ρ μ υ × Reply μ) :=
  match s.endpoints.lookup address with
  | none => none
  | some endpoint =>
      (endpoint.inbox.act a).map fun (inbox, out) =>
        ({ s with
            endpoints := s.endpoints.insert address
              { endpoint with inbox := inbox } },
          match out with
          | none => .done
          | some out => .recv out)

/-- A handle runs: skipped if it was cancelled. -/
def runHandle (s : Net ρ μ υ) (h : Handle (Callback μ υ)) : Net ρ μ υ :=
  if s.loop.isCancelled h then s else s.runCallback h.callback

variable [Random ρ]

/-- An operation of user code; `none` when it is not one that can happen, or
when it never returns. -/
def op (s : Net ρ μ υ) : Op μ υ → Option (Net ρ μ υ × Reply μ)
  | .callSoon k =>
      some ({ s with
          loop := s.loop.callSoon (.user k)
          owned := insert s.loop.nextHandle s.owned },
        .handle s.loop.nextHandle)
  | .callAt when k => some (s.userCallAt when k)
  | .callLater delay k => some (s.userCallLater delay k)
  | .cancel handle =>
      if handle ∈ s.owned then
        some ({ s with loop := s.loop.cancel handle }, .done)
      else none
  | .stop => some ({ s with loop := s.loop.stop }, .done)
  | .record event => some (s.record (.user event), .done)
  | .bind address reliable loss duplicate =>
      match s.bind address reliable loss duplicate with
      | .error e => some (s, .error e)
      | .ok s => some (s, .done)
  | .partition groups => some ({ s with partition := some groups }, .done)
  | .heal => some ({ s with partition := none }, .done)
  | .send src dst msg =>
      (s.endpoints.lookup src).map fun endpoint =>
        (s.send endpoint dst msg, .done)
  | .recv address task mustCancel => s.inboxAct address (.recv task mustCancel)
  | .cancelRecv address task => s.inboxAct address (.cancel task)
  | .resumeRecv address task => s.inboxAct address (.resume task)
  | .runFor seconds faults fuel k =>
      (s.runFor fuel seconds faults k).map fun
        | (s, .error e) => (s, .error e)
        | (s, .ok ()) => (s, .done)
  | .cancelRunFor fut =>
      some ({ s with abandoned := insert fut s.abandoned }.finishSleep fut,
        .done)

/-- The machine the loop drives. `runReady` is one turn of the batch, and
`clearStop` the end of a `run_forever`. -/
def step (s : Net ρ μ υ) : Act μ υ → Option (Net ρ μ υ)
  | .op o => (s.op o).map Prod.fst
  | .beginStep stopStep =>
      some { s with loop := (s.loop.beginStep stopStep).1 }
  | .runReady =>
      match s.loop.ready with
      | [] => none
      | h :: rest =>
          some (runHandle { s with loop := { s.loop with ready := rest } } h)
  | .clearStop =>
      some { s with loop := { s.loop with stopping := false } }

/-- Take a handle out of wherever it waits. -/
def dropHandle (l : Loop (Callback μ υ)) (id : ℕ) : Loop (Callback μ υ) :=
  { l with
    ready := l.ready.eraseP fun h => h.id = id
    timers := l.timers.eraseP fun t => t.handle.id = id }

/-- The machine with no order on what fires. -/
def freeStep (s : Net ρ μ υ) : FreeAct μ υ → Option (Net ρ μ υ)
  | .act a => s.step a
  | .fault c => some (s.runFault c)
  | .fire id =>
      (s.loop.pending.find? fun h => h.id = id).map fun h =>
        runHandle { s with loop := dropHandle s.loop id } h
  | .setClock time => some { s with loop := { s.loop with time := time } }

/-- The timers a move promotes to the ready queue. -/
def promotedBy (s : Net ρ μ υ) : Act μ υ → List (Timer (Callback μ υ))
  | .beginStep stopStep => s.loop.promotedAt stopStep
  | _ => []

/-- The `run_for` calls that return normally in a move. -/
def returnedBy (s : Net ρ μ υ) : Act μ υ → List ℕ
  | .runReady =>
      match s.loop.ready with
      | ⟨id, .resume fut _, _⟩ :: _ =>
          if id ∈ s.loop.cancelled ∨ fut ∈ s.abandoned then [] else [fut]
      | _ => []
  | _ => []

end Net

end Seedloop
