import Seedloop.Proofs.Deadlock

/-!
# What a step does not see

How many steps are left, what running out of them raises, how far a run is
looked at and what user code will do later are none of a step's business, once
it has begun. So the same step under another limit is the same step, and leaves
the same world under that other limit. Each operation is checked for that once,
and the rest follows from how they are put together.
-/

namespace Seedloop

namespace World

variable {ρ μ κ υ ε α β γ : Type}

/-- What limits a run, and what user code will do in it. -/
structure Limits (μ κ υ ε : Type) where
  maxSteps : Option ℕ
  stepsLeft : Option ℕ
  stepError : StepError
  horizon : ℕ
  script : ℕ → List (List (UserOp μ κ υ ε))

def limits (w : World ρ μ κ υ ε) : Limits μ κ υ ε :=
  ⟨w.maxSteps, w.stepsLeft, w.stepError, w.horizon, w.script⟩

/-- The same world under other limits. -/
def under (w : World ρ μ κ υ ε) (l : Limits μ κ υ ε) : World ρ μ κ υ ε :=
  { w with
    maxSteps := l.maxSteps
    stepsLeft := l.stepsLeft
    stepError := l.stepError
    horizon := l.horizon
    script := l.script }

/-- It neither sees the limits nor changes them. -/
def Blind (x : Run ρ μ κ υ ε α) : Prop :=
  ∀ l, Exec.Sync (fun s t => s = t.under l) x x

section

variable {x : Run ρ μ κ υ ε α} {f : α → Run ρ μ κ υ ε β}

theorem Blind.eq (h : Blind x) (w : World ρ μ κ υ ε) (l : Limits μ κ υ ε) :
    x (w.under l) = ((x w).1, (x w).2.under l) :=
  Prod.ext (h l _ w rfl).1 (h l _ w rfl).2

theorem Blind.limits (h : Blind x) (w : World ρ μ κ υ ε) :
    (x w).2.limits = w.limits := by
  have heq : (x w).2 = (x w).2.under w.limits :=
    congrArg Prod.snd (h.eq w w.limits)
  rw [heq]
  rfl

theorem Blind.pure (a : α) : Blind (Pure.pure a : Run ρ μ κ υ ε α) :=
  fun _ => Exec.sync_pure a

theorem Blind.raise (e : Exc ε) : Blind (Exec.raise e : Run ρ μ κ υ ε α) :=
  fun _ => Exec.sync_raise e

theorem Blind.update {g : World ρ μ κ υ ε → World ρ μ κ υ ε}
    (h : ∀ w l, g (w.under l) = (g w).under l) :
    Blind (Exec.update g : Run ρ μ κ υ ε Unit) :=
  fun l => Exec.sync_update fun s t hst => by rw [hst, h]

/-- What is looked at is not the limits. -/
theorem Blind.look {g : World ρ μ κ υ ε → Run ρ μ κ υ ε α}
    (h : ∀ w l, g (w.under l) = g w) (hg : ∀ w, Blind (g w)) :
    Blind (Exec.look g) :=
  fun l => Exec.sync_look fun s t hst => by
    rw [hst, h]
    exact hg t l

theorem Blind.bind (hx : Blind x) (hf : ∀ a, Blind (f a)) : Blind (x >>= f) :=
  fun l => (hx l).bind fun a => hf a l

theorem Blind.attempt (hx : Blind x) : Blind (Exec.attempt x) :=
  fun l => (hx l).attempt

theorem Blind.forEach {g : γ → Run ρ μ κ υ ε Unit} {as : List γ}
    (h : ∀ a ∈ as, Blind (g a)) : Blind (Exec.forEach g as) :=
  fun l => Exec.Sync.forEach fun a ha => h a ha l

end

/-! ## User code -/

variable [Raisable ε]

section

variable [Random ρ]

end

/-! ## The rest of a step -/

variable [Random ρ]

end World

end Seedloop
