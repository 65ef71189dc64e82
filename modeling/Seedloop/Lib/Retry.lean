import Mathlib.Logic.Function.Iterate
import Mathlib.Order.Basic

/-!
# Drawing again until it fits

A trial advances a generator and comes out with a value; one that does not fit
is thrown away and the next trial goes on where it stopped. Nothing bounds the
number of trials, so the loop runs on fuel. What it answers is said without
the loop: the value of the first trial that fits, counted from the state the
loop was entered with.
-/

variable {σ α : Type}

/-- Try until the value fits; `none` when `fuel` trials were not enough. -/
def retry (trial : σ → α × σ) (fits : α → Prop) [DecidablePred fits] :
    ℕ → σ → Option (α × σ)
  | 0, _ => none
  | fuel + 1, s =>
      match trial s with
      | (a, s) => if fits a then some (a, s) else retry trial fits fuel s

namespace Retry

variable (trial : σ → α × σ)

/-- The state after `k` trials. -/
def after (k : ℕ) : σ → σ := (fun s => (trial s).2)^[k]

/-- The value of the `k`-th trial. -/
def value (k : ℕ) (s : σ) : α := (trial (after trial k s)).1

theorem after_succ (k : ℕ) (s : σ) :
    after trial (k + 1) s = (trial (after trial k s)).2 :=
  Function.iterate_succ_apply' _ _ _

variable {trial} {fits : α → Prop} [DecidablePred fits]

/-- What the loop answers is the first trial that fits. -/
theorem eq_some_iff {fuel : ℕ} {s t : σ} {a : α} :
    retry trial fits fuel s = some (a, t) ↔
      ∃ k < fuel, (∀ j < k, ¬ fits (value trial j s)) ∧ fits a ∧
        value trial k s = a ∧ after trial (k + 1) s = t := by
  induction fuel generalizing s with
  | zero => simp [retry]
  | succ fuel ih =>
      unfold retry
      dsimp only
      split
      · next hfits =>
        constructor
        · intro h
          cases h
          exact ⟨0, Nat.succ_pos _, by simp, hfits, rfl, rfl⟩
        · rintro ⟨k, -, hbefore, -, rfl, rfl⟩
          cases k with
          | zero => rfl
          | succ k => exact absurd hfits (hbefore 0 (Nat.succ_pos _))
      · next hfits =>
        rw [ih]
        constructor
        · rintro ⟨k, hk, hbefore, ha, hvalue, hafter⟩
          refine ⟨k + 1, Nat.succ_lt_succ hk, ?_, ha, hvalue, hafter⟩
          intro j hj
          cases j with
          | zero => exact hfits
          | succ j => exact hbefore j (Nat.lt_of_succ_lt_succ hj)
        · rintro ⟨k, hk, hbefore, ha, hvalue, hafter⟩
          cases k with
          | zero =>
              subst hvalue
              exact absurd ha hfits
          | succ k =>
              refine ⟨k, Nat.lt_of_succ_lt_succ hk, ?_, ha, hvalue, hafter⟩
              exact fun j hj => hbefore (j + 1) (Nat.succ_lt_succ hj)

/-- A trial that fits ends the loop, on enough fuel. -/
theorem isSome_of_fits {k fuel : ℕ} {s : σ} (hk : k < fuel)
    (h : fits (value trial k s)) : (retry trial fits fuel s).isSome := by
  induction fuel generalizing k s with
  | zero => exact absurd hk (Nat.not_lt_zero k)
  | succ fuel ih =>
      unfold retry
      dsimp only
      split
      · rfl
      · next hfits =>
        cases k with
        | zero => exact absurd h hfits
        | succ k => exact ih (Nat.lt_of_succ_lt_succ hk) h

end Retry
