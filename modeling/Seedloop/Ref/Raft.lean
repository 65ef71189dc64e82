import Mathlib.Data.Finset.Card
import Mathlib.Data.List.AList
import Mathlib.Data.List.Perm.Basic

/-!
# The Raft election demo

`demos/raft.py`. A handler of `RaftNode` never suspends, since `send` returns
without waiting, so a node is a state and each handler a function of it that
also answers what it sends. The cluster is the nodes and the packets in
flight: any node may time out at any moment, and any packet may be handled,
lost or doubled at any moment, so delays and reorderings need no move of their
own.
-/

namespace Seedloop

namespace Raft

/-- `FOLLOWER`, `CANDIDATE`, `LEADER`. -/
inductive Role where
  | follower
  | candidate
  | leader
  deriving DecidableEq

/-- The tuples on the wire. -/
inductive Msg (α : Type) where
  | requestVote (term : ℕ) (candidate : α)
  | vote (term : ℕ) (voter : α) (granted : Bool)
  | heartbeat (term : ℕ) (leader : α)
  deriving DecidableEq

/-- `RaftNode`. -/
structure RaftNode (α : Type) where
  addr : α
  peers : List α
  buggy : Bool
  term : ℕ
  role : Role
  votedFor : Option α
  votes : Finset α

namespace RaftNode

variable {α : Type}

/-- `RaftNode.__init__`. -/
def init (addr : α) (peers : List α) (buggy : Bool) : RaftNode α where
  addr := addr
  peers := peers
  buggy := buggy
  term := 0
  role := .follower
  votedFor := none
  votes := ∅

/-- `self._all`. -/
def all (node : RaftNode α) : ℕ := node.peers.length + 1

/-- `_broadcast`: what goes to whom. -/
def broadcast (node : RaftNode α) (msg : Msg α) : List (α × Msg α) :=
  node.peers.map fun p => (p, msg)

/-- `_adopt_newer_term`. -/
def adoptNewerTerm (node : RaftNode α) (term : ℕ) : RaftNode α :=
  if node.term < term then
    { node with term := term, role := .follower, votedFor := none, votes := ∅ }
  else node

/-- `_begin_election`. -/
def beginElection (node : RaftNode α) : RaftNode α × List (α × Msg α) :=
  let node := { node with
    term := node.term + 1
    role := .candidate
    votedFor := some node.addr
    votes := {node.addr} }
  (node, node.broadcast (.requestVote node.term node.addr))

/-- The `TimeoutError` branch of `run`. -/
def onTimeout (node : RaftNode α) : RaftNode α × List (α × Msg α) :=
  if node.role = .leader then
    (node, node.broadcast (.heartbeat node.term node.addr))
  else node.beginElection

/-- `_on_heartbeat`. -/
def onHeartbeat (node : RaftNode α) (term : ℕ) : RaftNode α :=
  let node := node.adoptNewerTerm term
  if term = node.term ∧ node.role ≠ .follower then
    { node with role := .follower }
  else node

variable [DecidableEq α]

/-- `_on_request_vote`. -/
def onRequestVote (node : RaftNode α) (src : α) (term : ℕ) :
    RaftNode α × List (α × Msg α) :=
  let node := node.adoptNewerTerm term
  if term = node.term ∧ node.role ≠ .leader ∧
      (node.buggy ∨ node.votedFor = none ∨ node.votedFor = some src) then
    ({ node with votedFor := some src },
      [(src, .vote node.term node.addr true)])
  else (node, [(src, .vote node.term node.addr false)])

/-- `_on_vote`. -/
def onVote (node : RaftNode α) (term : ℕ) (voter : α) (granted : Bool) :
    RaftNode α × List (α × Msg α) :=
  if term = node.term ∧ node.role = .candidate ∧ granted then
    let node := { node with votes := insert voter node.votes }
    if node.all / 2 < node.votes.card then
      let node := { node with role := .leader }
      (node, node.broadcast (.heartbeat node.term node.addr))
    else (node, [])
  else (node, [])

/-- `_handle`. -/
def handle (node : RaftNode α) (src : α) : Msg α → RaftNode α × List (α × Msg α)
  | .requestVote term _ => node.onRequestVote src term
  | .vote term voter granted => node.onVote term voter granted
  | .heartbeat term _ => (node.onHeartbeat term, [])

end RaftNode

/-- `leaders_by_term`. -/
def leadersByTerm {α : Type} [DecidableEq α] (nodes : List (RaftNode α)) :
    AList fun _ : ℕ => Finset α :=
  nodes.foldl (fun out node =>
    if node.role = .leader then
      out.insert node.term
        (insert node.addr ((out.lookup node.term).getD ∅))
    else out) ∅

/-- `at_most_one_leader_per_term`. -/
def atMostOneLeaderPerTerm {α : Type} [DecidableEq α]
    (nodes : List (RaftNode α)) : Bool :=
  (leadersByTerm nodes).entries.all fun e => e.2.card ≤ 1

/-! ## The cluster -/

/-- Who is in the cluster: the peers of each node are all the others, in an
order of their own. -/
structure Members (α : Type) where
  addrs : List α
  peers : α → List α
  nodup : addrs.Nodup
  others : ∀ a ∈ addrs, (a :: peers a).Perm addrs

/-- A message in flight. -/
structure Packet (α : Type) where
  src : α
  dst : α
  msg : Msg α
  deriving DecidableEq

structure Cluster (α : Type) where
  nodes : α → RaftNode α
  flight : List (Packet α)

/-- What can happen to a cluster. -/
inductive Act (α : Type) where
  | timeout (a : α)
  | handle (p : Packet α)
  | lose (p : Packet α)
  | duplicate (p : Packet α)

namespace Cluster

variable {α : Type}

def init (m : Members α) (buggy : Bool) : Cluster α where
  nodes a := .init a (m.peers a) buggy
  flight := []

variable [DecidableEq α]

/-- A node goes on, and its messages are in flight. -/
def advance (s : Cluster α) (a : α) (r : RaftNode α × List (α × Msg α)) :
    Cluster α where
  nodes := Function.update s.nodes a r.1
  flight := s.flight ++ r.2.map fun x => ⟨r.1.addr, x.1, x.2⟩

def step (m : Members α) (s : Cluster α) : Act α → Option (Cluster α)
  | .timeout a =>
      if a ∈ m.addrs then some (s.advance a (s.nodes a).onTimeout) else none
  | .handle p =>
      if p ∈ s.flight ∧ p.dst ∈ m.addrs then
        some ({ s with flight := s.flight.erase p }.advance p.dst
          ((s.nodes p.dst).handle p.src p.msg))
      else none
  | .lose p =>
      if p ∈ s.flight then some { s with flight := s.flight.erase p } else none
  | .duplicate p =>
      if p ∈ s.flight then some { s with flight := p :: s.flight } else none

end Cluster

end Raft

end Seedloop
