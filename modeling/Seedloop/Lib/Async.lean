import Mathlib.Data.List.Basic
import Mathlib.Logic.Function.Basic
import Seedloop.Lib.Machine

/-!
# Programs on an asynchronous network

A program has two handlers, one for what a node does unasked and one for what
it does with a message, and both answer what the node sends. The network keeps
a packet until it is handled, in no order, and may lose it or double it at any
moment before that. Delay needs no move of its own.

What is in flight counts with multiplicity: handling or losing a packet takes
one copy out of flight. `settle` is the rule for a carrier that decides about a
packet as it is sent: whatever it decides, the network can be brought to hold
exactly the copies that the carrier has.
-/

namespace Async

/-- What the nodes of a program do. -/
structure Program (α μ σ : Type*) where
  fires : σ → σ × List (α × μ)
  handles : σ → α → μ → σ × List (α × μ)

structure Packet (α μ : Type*) where
  src : α
  dst : α
  msg : μ
  deriving DecidableEq

structure Config (α μ σ : Type*) where
  nodes : α → σ
  flight : List (Packet α μ)

inductive Act (α μ : Type*) where
  | fire (a : α)
  | handle (p : Packet α μ)
  | lose (p : Packet α μ)
  | duplicate (p : Packet α μ)

def Act.isDuplicate {α μ : Type*} : Act α μ → Bool
  | .duplicate _ => true
  | _ => false

/-- The packets of what a node sends. -/
def packets {α μ : Type*} (a : α) (out : List (α × μ)) : List (Packet α μ) :=
  out.map fun x => ⟨a, x.1, x.2⟩

namespace Config

variable {α μ σ : Type*} [DecidableEq α]

/-- A node goes on, and what it sends is in flight. -/
def advance (c : Config α μ σ) (a : α) (r : σ × List (α × μ)) :
    Config α μ σ where
  nodes := Function.update c.nodes a r.1
  flight := c.flight ++ packets a r.2

variable [DecidableEq μ]

def step (P : Program α μ σ) (members : List α) (c : Config α μ σ) :
    Act α μ → Option (Config α μ σ)
  | .fire a =>
      if a ∈ members then some (c.advance a (P.fires (c.nodes a))) else none
  | .handle p =>
      if p ∈ c.flight ∧ p.dst ∈ members then
        some ({ c with flight := c.flight.erase p }.advance p.dst
          (P.handles (c.nodes p.dst) p.src p.msg))
      else none
  | .lose p =>
      if p ∈ c.flight then some { c with flight := c.flight.erase p } else none
  | .duplicate p =>
      if p ∈ c.flight then some { c with flight := p :: c.flight } else none

/-- A packet in flight is lost, kept or doubled, as a carrier has decided. -/
theorem settle (P : Program α μ σ) (members : List α) {c : Config α μ σ}
    {p : Packet α μ} (hp : p ∈ c.flight) {copies : ℕ} (hcopies : copies ≤ 2) :
    ∃ as d, Machine.run (step P members) c as = some d ∧ d.nodes = c.nodes ∧
      (∀ q, d.flight.count q + (if q = p then 1 else 0) =
        c.flight.count q + if q = p then copies else 0) ∧
      as.countP Act.isDuplicate = copies - 1 := by
  have hpos := List.count_pos_iff.mpr hp
  obtain rfl | rfl | rfl : copies = 0 ∨ copies = 1 ∨ copies = 2 := by omega
  · refine ⟨[.lose p], _, Machine.run_cons_eq_some.mpr
      ⟨_, if_pos hp, rfl⟩, rfl, fun q => ?_, rfl⟩
    by_cases hq : q = p
    · subst hq
      simp only [List.count_erase_self, if_true]
      omega
    · simp [hq]
  · exact ⟨[], c, rfl, rfl, fun q => rfl, rfl⟩
  · refine ⟨[.duplicate p], _, Machine.run_cons_eq_some.mpr
      ⟨_, if_pos hp, rfl⟩, rfl, fun q => ?_, rfl⟩
    by_cases hq : q = p
    · subst hq
      simp
    · simp [hq, Ne.symm hq]

end Config

end Async
