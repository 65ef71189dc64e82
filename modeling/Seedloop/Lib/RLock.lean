import Mathlib.Data.Nat.Notation
import Mathlib.Logic.Basic

/-!
# A re-entrant lock

A lock that its holder can take again, and has to release as often. Whoever
else wants it waits, which is a step that is not enabled. How often a thread
has taken it and not released it is its `depth`; that is all there is to say of
a lock from outside, and at most one thread has any.
-/

inductive RLock (τ : Type) where
  | free
  /-- Taken by `holder`, and `again` times more. -/
  | held (holder : τ) (again : ℕ)

namespace RLock

variable {τ : Type} [DecidableEq τ]

/-- What becomes of the lock when `t` takes it, unless it has to wait. -/
def acquire (l : RLock τ) (t : τ) : Option (RLock τ) :=
  match l with
  | .free => some (.held t 0)
  | .held u k => if u = t then some (.held t (k + 1)) else none

/-- What becomes of it when `t` releases it; only its holder can. -/
def release (l : RLock τ) (t : τ) : Option (RLock τ) :=
  match l with
  | .free => none
  | .held u 0 => if u = t then some .free else none
  | .held u (k + 1) => if u = t then some (.held t k) else none

def depth (l : RLock τ) (t : τ) : ℕ :=
  match l with
  | .free => 0
  | .held u k => if u = t then k + 1 else 0

theorem depth_held (u t : τ) (k : ℕ) :
    (held u k).depth t = if u = t then k + 1 else 0 := rfl

/-- There is one holder. -/
theorem exclusive {l : RLock τ} {t u : τ} (ht : l.depth t ≠ 0)
    (hu : l.depth u ≠ 0) : t = u := by
  cases l with
  | free => exact absurd rfl ht
  | held v k =>
      rw [depth_held, ite_ne_right_iff] at ht hu
      exact ht.1.symm.trans hu.1

theorem depth_acquire {l l' : RLock τ} {t : τ} (h : l.acquire t = some l') :
    l'.depth t = l.depth t + 1 ∧ ∀ u, u ≠ t → l.depth u = 0 ∧ l'.depth u = 0 := by
  cases l with
  | free =>
      cases h
      exact ⟨if_pos rfl, fun u hu => ⟨rfl, if_neg (Ne.symm hu)⟩⟩
  | held v k =>
      rw [acquire] at h
      split at h
      · next hv =>
        subst hv
        cases h
        refine ⟨?_, fun u hu => ⟨if_neg (Ne.symm hu), if_neg (Ne.symm hu)⟩⟩
        rw [depth_held, depth_held, if_pos rfl, if_pos rfl]
      · cases h

theorem depth_release {l l' : RLock τ} {t : τ} (h : l.release t = some l') :
    l.depth t = l'.depth t + 1 ∧ ∀ u, u ≠ t → l'.depth u = 0 := by
  cases l with
  | free => cases h
  | held v k =>
      cases k with
      | zero =>
          rw [release] at h
          split at h
          · next hv =>
            cases h
            exact ⟨if_pos hv, fun _ _ => rfl⟩
          · cases h
      | succ k =>
          rw [release] at h
          split at h
          · next hv =>
            subst hv
            cases h
            refine ⟨?_, fun u hu => if_neg (Ne.symm hu)⟩
            rw [depth_held, depth_held, if_pos rfl, if_pos rfl]
          · cases h

end RLock
