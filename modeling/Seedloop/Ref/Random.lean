import Mathlib.Algebra.Order.Ring.Rat
import Mathlib.Data.Finset.Basic
import Mathlib.Tactic.Linarith

/-!
# Seeded draws

`random.Random` is a generator state with two ways of advancing it: `random()`
and the `_randbelow` that `choice` is built on. Nothing in the library depends
on how either is computed, so they are a class, and what the class promises is
what the documentation does: a `random()` in `[0, 1)` and an index in range.

`_draw_bipartition` draws until both sides are non-empty. Whether it ever
stops is a property of the stream, so its loop runs on fuel, and the fuel is
part of the call: no fuel is enough exactly when the call never returns.
-/

namespace Seedloop

/-- A `random.Random` in some state. -/
class Random (ρ : Type) where
  random : ρ → ℚ × ρ
  randbelow : ℕ → ρ → ℕ × ρ
  random_nonneg : ∀ g, 0 ≤ (random g).1
  random_lt_one : ∀ g, (random g).1 < 1
  randbelow_lt : ∀ n g, 0 < n → (randbelow n g).1 < n

namespace Random

variable {ρ : Type} [Random ρ]

/-- `Random.uniform`. -/
def uniform (a b : ℚ) (g : ρ) : ℚ × ρ :=
  match random g with
  | (x, g) => (a + (b - a) * x, g)

theorem uniform_fst (a b : ℚ) (g : ρ) :
    (uniform a b g).1 = a + (b - a) * (random g).1 := rfl

theorem le_uniform {a b : ℚ} (h : a ≤ b) (g : ρ) : a ≤ (uniform a b g).1 := by
  rw [uniform_fst]
  have := mul_nonneg (sub_nonneg.mpr h) (random_nonneg g)
  linarith

theorem uniform_le {a b : ℚ} (h : a ≤ b) (g : ρ) : (uniform a b g).1 ≤ b := by
  rw [uniform_fst]
  have := mul_le_mul_of_nonneg_left (random_lt_one g).le (sub_nonneg.mpr h)
  linarith

/-- `Random.choice`; `none` is its `IndexError` on an empty sequence. -/
def choice {α : Type} (seq : List α) (g : ρ) : Option (α × ρ) :=
  match randbelow seq.length g with
  | (i, g) => seq[i]?.map fun a => (a, g)

theorem choice_isSome {α : Type} {seq : List α} (h : seq ≠ []) (g : ρ) :
    (choice seq g).isSome := by
  have hlt := randbelow_lt seq.length g (List.length_pos_iff.mpr h)
  simp [choice, hlt]

theorem mem_of_choice {α : Type} {seq : List α} {g g' : ρ} {a : α}
    (h : choice seq g = some (a, g')) : a ∈ seq := by
  simp only [choice, Option.map_eq_some_iff] at h
  obtain ⟨b, hb, heq⟩ := h
  cases heq
  exact List.mem_of_getElem? hb

end Random

/-- The shortest stream that visits both halves of the unit interval: a
quarter and three quarters in turn, and always the first choice. -/
inductive Toggle where
  | low
  | high
  deriving DecidableEq

instance : Random Toggle where
  random
    | .low => (1 / 4, .high)
    | .high => (3 / 4, .low)
  randbelow _ g := (0, g)
  random_nonneg g := by cases g <;> norm_num
  random_lt_one g := by cases g <;> norm_num
  randbelow_lt _ _ h := h

variable {ρ : Type} [Random ρ]

/-- One round of the bipartition draw: every address to a side, in order. -/
def drawSides : List ℤ → ρ → (Finset ℤ × Finset ℤ) × ρ
  | [], g => ((∅, ∅), g)
  | addr :: addrs, g =>
      match Random.random g with
      | (x, g) =>
          match drawSides addrs g with
          | ((a, b), g) =>
              if x < 1 / 2 then ((insert addr a, b), g)
              else ((a, insert addr b), g)

/-- `_draw_bipartition` over the bound addresses; `none` when `fuel` rounds
were not enough. -/
def drawBipartition (addrs : List ℤ) : ℕ → ρ → Option (List (Finset ℤ) × ρ)
  | 0, _ => none
  | fuel + 1, g =>
      match drawSides addrs g with
      | ((a, b), g) =>
          if a.Nonempty ∧ b.Nonempty then some ([a, b], g)
          else drawBipartition addrs fuel g

end Seedloop
