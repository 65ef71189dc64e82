import Seedloop.Ref.Net
import Seedloop.Ref.Raft

/-!
# The demo on the simulated clock

`RaftNode.run` waits for a message under a timeout that it draws anew each
time, and the network draws a latency for each message. A wait that ends with
its timeout ends somewhere between the least and the greatest one that can be
drawn, and one that can still be drawn keeps the clock from passing the
greatest; a message likewise. So instead of the draws a state has the times
the waits and the messages began at, and a move has the time it is made at.

Moves are at times of their own in `step`; `tick` is the clock where they may
be at one time. No message is lost, doubled, cut off or slowed, as `bind` and
the scenario of the demo have it.
-/

namespace Seedloop

namespace Raft

def electionMin : ℚ := 15 / 100

def electionMax : ℚ := 30 / 100

def heartbeat : ℚ := 5 / 100

/-- The least and the greatest timeout of a wait. -/
def RaftNode.patience {α : Type} (node : RaftNode α) : ℚ × ℚ :=
  if node.role = .leader then (heartbeat, heartbeat)
  else (electionMin, electionMax)

/-- A cluster and its clock: when each node began to wait, and the messages in
flight with the time each was sent at. -/
structure Clocked (α : Type) where
  now : ℚ
  nodes : α → RaftNode α
  since : α → ℚ
  flight : List (ℚ × Packet α)

/-- What happens next. -/
inductive Move (α : Type) where
  | timeout (a : α)
  | handle (sent : ℚ) (p : Packet α)

/-- The move, less its times. -/
def Move.act {α : Type} : Move α → Act α
  | .timeout a => .timeout a
  | .handle _ p => .handle p

namespace Clocked

variable {α : Type}

/-- `World.start` on each node of the demo's scenario. -/
def init (m : Members α) (buggy : Bool) : Clocked α where
  now := 0
  nodes a := .init a (m.peers a) buggy
  since _ := 0
  flight := []

/-- Nothing has to have happened between now and `t`. -/
def Free (m : Members α) (s : Clocked α) (t : ℚ) : Prop :=
  s.now < t ∧ (∀ x ∈ m.addrs, t ≤ s.since x + (s.nodes x).patience.2) ∧
    ∀ p ∈ s.flight, t ≤ p.1 + latMax

instance (m : Members α) (s : Clocked α) (t : ℚ) : Decidable (s.Free m t) := by
  unfold Free
  infer_instance

/-- What a node sends at `t`. -/
def sends (t : ℚ) (r : RaftNode α × List (α × Msg α)) : List (ℚ × Packet α) :=
  r.2.map fun x => (t, ⟨r.1.addr, x.1, x.2⟩)

variable [DecidableEq α]

/-- A node goes on at `t`, its messages are in flight, and it waits again. -/
def advance (s : Clocked α) (t : ℚ) (a : α)
    (r : RaftNode α × List (α × Msg α)) : Clocked α where
  now := t
  nodes := Function.update s.nodes a r.1
  since := Function.update s.since a t
  flight := s.flight ++ sends t r

def step (m : Members α) (s : Clocked α) : ℚ × Move α → Option (Clocked α)
  | (t, .timeout a) =>
      if a ∈ m.addrs ∧ s.Free m t ∧ s.since a + (s.nodes a).patience.1 ≤ t then
        some (s.advance t a (s.nodes a).onTimeout)
      else none
  | (t, .handle sent p) =>
      if p.dst ∈ m.addrs ∧ s.Free m t ∧ (sent, p) ∈ s.flight ∧
          sent + latMin ≤ t then
        some ({ s with flight := s.flight.erase (sent, p) }.advance t p.dst
          ((s.nodes p.dst).handle p.src p.msg))
      else none

/-- `Free`, when moves can be made at one time. -/
def Due (m : Members α) (s : Clocked α) (t : ℚ) : Prop :=
  s.now ≤ t ∧ (∀ x ∈ m.addrs, t ≤ s.since x + (s.nodes x).patience.2) ∧
    ∀ p ∈ s.flight, t ≤ p.1 + latMax

instance (m : Members α) (s : Clocked α) (t : ℚ) : Decidable (s.Due m t) := by
  unfold Due
  infer_instance

/-- `step`, when moves can be made at one time. -/
def tick (m : Members α) (s : Clocked α) : ℚ × Move α → Option (Clocked α)
  | (t, .timeout a) =>
      if a ∈ m.addrs ∧ s.Due m t ∧ s.since a + (s.nodes a).patience.1 ≤ t then
        some (s.advance t a (s.nodes a).onTimeout)
      else none
  | (t, .handle sent p) =>
      if p.dst ∈ m.addrs ∧ s.Due m t ∧ (sent, p) ∈ s.flight ∧
          sent + latMin ≤ t then
        some ({ s with flight := s.flight.erase (sent, p) }.advance t p.dst
          ((s.nodes p.dst).handle p.src p.msg))
      else none

end Clocked

end Raft

end Seedloop
