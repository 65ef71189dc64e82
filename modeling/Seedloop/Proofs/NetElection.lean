import Seedloop.Proofs.Election
import Seedloop.Proofs.NodeRuns

/-!
# The election on the simulated network

The demo's nodes, on the network that `World` gives them. What happens on that
network happens on an asynchronous one (`NodeRuns`), the cluster of the demo is
such a network, and an election is safe there. So the demo's property holds of
a correct cluster in every run of a scenario around it: whatever policy its
endpoints are bound with, and whatever partitions, slow links and crashes there
are.
-/

namespace Seedloop

namespace Raft

open Async

/-- `RaftNode.run`: its `TimeoutError` branch, and `_handle`. -/
def electing (α : Type) [DecidableEq α] : Program α (Msg α) (RaftNode α) where
  fires := RaftNode.onTimeout
  handles := RaftNode.handle

variable {α : Type} [DecidableEq α]

/-- A packet, as the cluster has it. -/
def inCluster (p : Async.Packet α (Msg α)) : Packet α := ⟨p.src, p.dst, p.msg⟩

omit [DecidableEq α] in
theorem inCluster_injective :
    Function.Injective (inCluster : Async.Packet α (Msg α) → Packet α) := by
  rintro ⟨_, _, _⟩ ⟨_, _, _⟩ h
  cases h
  rfl

/-- A move of the network, as one of the cluster. -/
def actOf : Async.Act α (Msg α) → Act α
  | .fire a => .timeout a
  | .handle p => .handle (inCluster p)
  | .lose p => .lose (inCluster p)
  | .duplicate p => .duplicate (inCluster p)

/-- The cluster and the network are one, and each node knows its address. -/
structure Same (c : Config α (Msg α) (RaftNode α)) (k : Cluster α) : Prop where
  nodes : k.nodes = c.nodes
  flight : k.flight = c.flight.map inCluster
  addr : ∀ a, (c.nodes a).addr = a
  correct : ∀ a, (c.nodes a).buggy = false

theorem Same.advance {c : Config α (Msg α) (RaftNode α)} {k : Cluster α}
    (hs : Same c k) {a : α} {got : Option (Msg α)}
    {r : RaftNode α × List (α × Msg α)} (ha : Acts (c.nodes a) got r.1 r.2) :
    Same (c.advance a r) (k.advance a r) := by
  have haddr : r.1.addr = a := ha.addr.trans (hs.addr a)
  refine ⟨?_, ?_, fun b => ?_, fun b => ?_⟩
  · rw [Cluster.advance, Config.advance, hs.nodes]
  · rw [Cluster.advance, Config.advance, hs.flight, haddr, packets,
      List.map_append, List.map_map]
    rfl
  · show (Function.update c.nodes a r.1 b).addr = b
    by_cases hb : b = a
    · subst hb
      rw [Function.update_self, haddr]
    · rw [Function.update_of_ne hb, hs.addr]
  · show (Function.update c.nodes a r.1 b).buggy = false
    by_cases hb : b = a
    · subst hb
      rw [Function.update_self, ha.buggy, hs.correct]
    · rw [Function.update_of_ne hb, hs.correct]

theorem Same.step {m : Members α} {c d : Config α (Msg α) (RaftNode α)}
    {k : Cluster α} (hs : Same c k) {a : Async.Act α (Msg α)}
    (h : c.step (electing α) m.addrs a = some d) :
    ∃ l, k.step m (actOf a) = some l ∧ Same d l := by
  have hmem : ∀ p, p ∈ c.flight → inCluster p ∈ k.flight := by
    intro p hp
    rw [hs.flight]
    exact List.mem_map_of_mem hp
  have herase : ∀ p, Same { c with flight := c.flight.erase p }
      { k with flight := k.flight.erase (inCluster p) } := by
    intro p
    refine ⟨hs.nodes, ?_, hs.addr, hs.correct⟩
    rw [hs.flight, List.map_erase inCluster_injective]
  cases a with
  | fire x =>
      simp only [Config.step] at h
      split_ifs at h with hx
      cases h
      refine ⟨_, if_pos hx, ?_⟩
      rw [hs.nodes]
      exact hs.advance (onTimeout_acts _)
  | handle p =>
      simp only [Config.step] at h
      split_ifs at h with hp
      cases h
      refine ⟨_, if_pos ⟨hmem p hp.1, hp.2⟩, ?_⟩
      have := (herase p).advance (a := p.dst)
        (handle_acts (hs.correct p.dst) p.src p.msg)
      rwa [hs.nodes] at this ⊢
  | lose p =>
      simp only [Config.step] at h
      split_ifs at h with hp
      cases h
      exact ⟨_, if_pos (hmem p hp), herase p⟩
  | duplicate p =>
      simp only [Config.step] at h
      split_ifs at h with hp
      cases h
      refine ⟨_, if_pos (hmem p hp), hs.nodes, ?_, hs.addr, hs.correct⟩
      rw [hs.flight]
      rfl

/-! ## Safety -/

/-- A node that led a term when a part of the history was written is the only
one to lead it with all of it. -/
theorem Inv.sole_leader {m : Members α} {k l : Cluster α}
    {h new : List (Ballot α ℕ α)} (hk : Inv m k h) (hl : Inv m l (h ++ new))
    {p q : α} (hp : p ∈ m.addrs) (hq : q ∈ m.addrs) {term : ℕ}
    (hlp : Leads k p term) (hlq : Leads l q term) : p = q :=
  Ballot.Elected.unique hl.once
    ((hk.elected hp hlp).mono (List.subset_append_left _ _))
    (hl.elected hq hlq)

section

variable {ρ υ : Type} [Random ρ]

/-- The nodes of the demo on a network. -/
abbrev Electing (ρ υ : Type) : Type :=
  Nodes ρ (Msg Address) υ (RaftNode Address)

/-- The network, before anything is bound on it, and the nodes of a correct
cluster. -/
def electionStart (m : Members Address) (g f : ρ) : Electing ρ υ :=
  .init g f fun a => .init a (m.peers a) false

/-- A run on the simulated network has a history of ballots, which a later
part of the run adds to. -/
theorem run_history {m : Members Address} {r s : Electing ρ υ}
    {c : Config Address (Msg Address) (RaftNode Address)} {k : Cluster Address}
    {h : List (Ballot Address ℕ Address)}
    {as : List (Nodes.Act (Msg Address) υ)} (hr : Nodes.Matches r c)
    (hc : Same c k) (hk : Inv m k h)
    (hrun : Machine.run (Nodes.step (electing Address) m.addrs) r as =
      some s) :
    ∃ d l new, Nodes.Matches s d ∧ Same d l ∧ l.nodes = s.state ∧
      Inv m l (h ++ new) := by
  obtain ⟨cs, d, hcs, hmatch, -⟩ := Nodes.run_matches hr hrun
  obtain ⟨l, hl, hsame⟩ := Machine.run_refinement (R := Same) (g := actOf)
    (fun hs hstep => hs.step hstep) hc hcs
  exact ⟨d, l, _, hmatch, hsame, hsame.nodes.trans hmatch.nodes, run_inv hk hl⟩

/-- A correct cluster of any size on the simulated network, under any policies,
partitions and faults and any schedule of the loop: a node that leads a term
and a node that leads it then or later are one, and the demo's property holds
whenever it is checked. -/
theorem net_election_safety {m : Members Address} {g f : ρ}
    {before after : List (Nodes.Act (Msg Address) υ)} {s t : Electing ρ υ}
    (hs : Machine.run (Nodes.step (electing Address) m.addrs)
      (electionStart m g f) before = some s)
    (ht : Machine.run (Nodes.step (electing Address) m.addrs) s after =
      some t) :
    (∀ p ∈ m.addrs, ∀ q ∈ m.addrs, ∀ term,
      ((s.state p).role = .leader ∧ (s.state p).term = term) →
      ((t.state q).role = .leader ∧ (t.state q).term = term) → p = q) ∧
    atMostOneLeaderPerTerm (m.addrs.map s.state) = true ∧
    atMostOneLeaderPerTerm (m.addrs.map t.state) = true := by
  have hstart : Same (α := Address)
      ⟨fun a => .init a (m.peers a) false, []⟩ (Cluster.init m false) :=
    ⟨rfl, rfl, fun _ => rfl, fun _ => rfl⟩
  obtain ⟨c, k, h, hc, hck, hnodes, hk⟩ :=
    run_history (Nodes.init_matches g f _) hstart (init_inv m) hs
  obtain ⟨d, l, new, hd, hdl, hnodes', hl⟩ := run_history hc hck hk ht
  have hnow : ∀ {u : Cluster Address} {x : Electing ρ υ}
      {h : List (Ballot Address ℕ Address)}, Inv m u h → u.nodes = x.state →
      atMostOneLeaderPerTerm (m.addrs.map x.state) = true := by
    intro u x h hu hx
    rw [atMostOneLeaderPerTerm_iff, ← hx]
    rintro p hp q hq hlp hlq hterm
    obtain ⟨a, ha, rfl⟩ := List.mem_map.mp hp
    obtain ⟨b, hb, rfl⟩ := List.mem_map.mp hq
    rw [(hu.node a ha).addr, (hu.node b hb).addr]
    have hall : Inv m u (h ++ []) := by rwa [List.append_nil]
    exact hu.sole_leader hall ha hb ⟨hlp, rfl⟩ ⟨hlq, hterm.symm⟩
  refine ⟨?_, hnow hk hnodes, hnow hl hnodes'⟩
  intro p hp q hq term hlp hlq
  rw [← hnodes] at hlp
  rw [← hnodes'] at hlq
  exact hk.sole_leader hl hp hq hlp hlq

end

/-- Three nodes that know each other. -/
def threeAddresses : Members Address where
  addrs := [0, 1, 2]
  peers a := [0, 1, 2].filter (· ≠ a)
  nodup := by decide
  others := by decide

/-- Node 2 is cut off, and node 0 is elected with the vote of node 1. -/
def cutOffElection : List (Nodes.Act (Msg Address) ℕ) :=
  [.net (.op (.bind 0 false (.int 0) (.int 0))),
    .net (.op (.bind 1 false (.int 0) (.int 0))),
    .net (.op (.bind 2 false (.int 0) (.int 0))),
    .net (.op (.partition [{0, 1}, {2}])), .fire 0,
    .net (.beginStep false), .net .runReady,
    .net (.op (.recv 1 0 false)), .handle 1 (0, .requestVote 1 0),
    .net (.beginStep false), .net .runReady,
    .net (.op (.recv 0 1 false)), .handle 0 (1, .vote 1 1 true)]

/-- Node 2 has lost the request, and asks node 1 in the same term. -/
def healedRequest : List (Nodes.Act (Msg Address) ℕ) :=
  [.fire 2, .net (.beginStep false), .net .runReady, .net (.op .heal),
    .net (.beginStep false), .net .runReady, .net .runReady,
    .net (.op (.recv 1 0 false)), .handle 1 (2, .requestVote 1 2),
    .net (.op (.recv 2 2 false)), .handle 2 (0, .heartbeat 1 0)]

theorem net_election_safety_healedRequest : ∃ s t : Electing Toggle ℕ,
    Machine.run (Nodes.step (electing Address) threeAddresses.addrs)
      (electionStart threeAddresses Toggle.low Toggle.low) cutOffElection =
        some s ∧
    Machine.run (Nodes.step (electing Address) threeAddresses.addrs) s
      healedRequest = some t ∧
    ∀ q ∈ threeAddresses.addrs,
      ((t.state q).role = .leader ∧ (t.state q).term = 1) → 0 = q := by
  have hrun : (Machine.run (Nodes.step (electing Address) threeAddresses.addrs)
      (electionStart threeAddresses Toggle.low Toggle.low)
      (cutOffElection ++ healedRequest)).isSome := by decide +kernel
  obtain ⟨t, hall⟩ := Option.isSome_iff_exists.mp hrun
  obtain ⟨s, hs, ht⟩ := Machine.run_append_eq_some.mp hall
  have hlead : ((s.state 0).role, (s.state 0).term) = (.leader, 1) := by
    have := congrArg (Option.map fun s : Electing Toggle ℕ =>
      ((s.state 0).role, (s.state 0).term)) hs
    exact Option.some.inj (this.symm.trans (by decide +kernel))
  obtain ⟨hrole, hterm⟩ := Prod.mk.inj hlead
  refine ⟨s, t, hs, ht, fun q hq => ?_⟩
  exact (net_election_safety hs ht).1 0 (by decide) q hq 1 ⟨hrole, hterm⟩

end Raft

end Seedloop
