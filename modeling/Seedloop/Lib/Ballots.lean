import Mathlib.Data.Finset.Card

/-!
# Elections by majority

Voters cast ballots, each for a candidate in a term, and the list of all that
were ever cast only grows. When nobody votes twice in a term, a term has at
most one candidate whom a majority has voted for, and it does not matter when
the votes were counted: two majorities of one electorate share a voter.
-/

/-- A vote that was cast. -/
structure Ballot (V T C : Type*) where
  voter : V
  term : T
  candidate : C
  deriving DecidableEq

namespace Ballot

variable {V T C : Type*}

/-- Nobody votes for two candidates in one term. -/
def OneEach (ballots : List (Ballot V T C)) : Prop :=
  ∀ b ∈ ballots, ∀ b' ∈ ballots, b.voter = b'.voter → b.term = b'.term →
    b.candidate = b'.candidate

/-- More than half of the electorate voted for the candidate. -/
def Elected (voters : Finset V) (ballots : List (Ballot V T C)) (term : T)
    (candidate : C) : Prop :=
  ∃ quorum ⊆ voters, voters.card < 2 * quorum.card ∧
    ∀ v ∈ quorum, ⟨v, term, candidate⟩ ∈ ballots

theorem oneEach_nil : OneEach ([] : List (Ballot V T C)) := by
  intro b hb
  cases hb

/-- A ballot that agrees with every earlier one of its voter and term. -/
theorem OneEach.concat {ballots : List (Ballot V T C)} {b : Ballot V T C}
    (h : OneEach ballots)
    (hb : ∀ b' ∈ ballots, b'.voter = b.voter → b'.term = b.term →
      b'.candidate = b.candidate) : OneEach (ballots ++ [b]) := by
  intro x hx y hy hv ht
  simp only [List.mem_append, List.mem_singleton] at hx hy
  rcases hx with hx | rfl
  · rcases hy with hy | rfl
    · exact h x hx y hy hv ht
    · exact hb x hx hv ht
  · rcases hy with hy | rfl
    · exact (hb y hy hv.symm ht.symm).symm
    · rfl

theorem Elected.mono {voters : Finset V} {ballots ballots' : List (Ballot V T C)}
    {term : T} {candidate : C} (h : Elected voters ballots term candidate)
    (hsub : ballots ⊆ ballots') : Elected voters ballots' term candidate := by
  obtain ⟨quorum, hq, hcard, hall⟩ := h
  exact ⟨quorum, hq, hcard, fun v hv => hsub (hall v hv)⟩

/-- A term elects at most one candidate. -/
theorem Elected.unique [DecidableEq V] {voters : Finset V}
    {ballots : List (Ballot V T C)} {term : T} {p q : C}
    (hone : OneEach ballots) (hp : Elected voters ballots term p)
    (hq : Elected voters ballots term q) : p = q := by
  obtain ⟨A, hA, hcA, hallA⟩ := hp
  obtain ⟨B, hB, hcB, hallB⟩ := hq
  obtain ⟨v, hv⟩ := Finset.inter_nonempty_of_card_lt_card_add_card hA hB
    (by omega)
  obtain ⟨hvA, hvB⟩ := Finset.mem_inter.mp hv
  exact hone _ (hallA v hvA) _ (hallB v hvB) rfl rfl

end Ballot
