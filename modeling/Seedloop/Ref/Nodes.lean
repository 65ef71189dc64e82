import Seedloop.Lib.Async
import Seedloop.Ref.Sim

/-!
# Nodes on the simulated network

A node is a state and two handlers, and everything it sends goes out through
its endpoint before it waits again: `send` returns without suspending. What
its `recv` calls return is not always handled at once, since the task they
return to runs when the loop has it run, and a wait that is cancelled may have
taken a message; so a node has what it has taken and not handled yet.

When a node acts unasked is left open, which covers whatever timeout it draws.
Everything else that user code can do to the network and the loop may happen at
any time, on any schedule of the loop: faults, partitions, binds, `recv` calls
of any task. Only the nodes send.
-/

namespace Seedloop

/-- A network, and the nodes on it. -/
structure Nodes (ρ μ υ σ : Type) where
  net : Net ρ μ υ
  state : Address → σ
  taken : Address → List (Address × μ)

/-- Who is handed which message when an operation has answered: nobody, unless
a `recv` returns. -/
def Op.handed {μ υ : Type} : Op μ υ → Reply μ → Option (Address × Address × μ)
  | .recv address _ _, .recv (.returned item) => some (address, item)
  | .resumeRecv address _, .recv (.returned item) => some (address, item)
  | _, _ => none

namespace Nodes

variable {ρ μ υ σ : Type}

/-- What happens next: a move of the loop or of other user code, a node that
acts unasked, or one that handles a message it has taken. -/
inductive Act (μ υ : Type) where
  | net (a : Seedloop.Act μ υ)
  | fire (x : Address)
  | handle (x : Address) (item : Address × μ)

def init (netRng faultsRng : ρ) (state : Address → σ) : Nodes ρ μ υ σ where
  net := .init netRng faultsRng
  state := state
  taken _ := []

/-- A `recv` has returned. -/
def take (taken : Address → List (Address × μ)) :
    Option (Address × Address × μ) → Address → List (Address × μ)
  | none => taken
  | some (address, item) =>
      Function.update taken address (taken address ++ [item])

variable [Random ρ]

/-- `await ep.send(…)` for each of them in turn. -/
def sendAll (src : Address) :
    List (Address × μ) → Net ρ μ υ → Option (Net ρ μ υ)
  | [], s => some s
  | (dst, msg) :: out, s =>
      match s.op (.send src dst msg) with
      | none => none
      | some (s, _) => sendAll src out s

/-- A node goes on, and sends what it has to send. -/
def advance (s : Nodes ρ μ υ σ) (x : Address)
    (r : σ × List (Address × μ)) : Option (Nodes ρ μ υ σ) :=
  (sendAll x r.2 s.net).map fun net =>
    { s with net := net, state := Function.update s.state x r.1 }

variable [DecidableEq μ]

def step (P : Async.Program Address μ σ) (members : List Address)
    (s : Nodes ρ μ υ σ) : Act μ υ → Option (Nodes ρ μ υ σ)
  | .net (.op (.send _ _ _)) => none
  | .net (.op o) => (s.net.op o).map fun (net, r) =>
      { s with net := net, taken := take s.taken (o.handed r) }
  | .net a => (s.net.step a).map fun net => { s with net := net }
  | .fire x => if x ∈ members then s.advance x (P.fires (s.state x)) else none
  | .handle x item =>
      if item ∈ s.taken x ∧ x ∈ members then
        { s with
          taken := Function.update s.taken x ((s.taken x).erase item)
          }.advance x (P.handles (s.state x) item.1 item.2)
      else none

end Nodes

end Seedloop
