import Mathlib.Data.Rat.Defs
import Mathlib.Algebra.Order.Ring.Rat
import Mathlib.Order.WithBot
import Mathlib.Order.Lattice

/-!
# Numbers a caller can pass

Arithmetic is exact: a finite float is a rational, and sums and products of
them do not round. What is kept of Python's numbers is what the library tests
for — a `NaN`, the two infinities, and an `int` too large to become a float —
and the order `heapq` sees on timer deadlines, which is the order on the
non-`NaN` numbers with an infinity at each end.
-/

namespace Seedloop

/-- A Python `float`. -/
inductive PyFloat where
  | nan
  | negInf
  | fin (q : ℚ)
  | posInf
  deriving DecidableEq

/-- A number argument: an `int` or a `float`. -/
inductive Num where
  | int (z : ℤ)
  | float (f : PyFloat)
  deriving DecidableEq

/-- A deadline: any number but `NaN`. -/
inductive When where
  | negInf
  | fin (q : ℚ)
  | posInf
  deriving DecidableEq

namespace When

/-- Deadlines in Mathlib's extended order. -/
def toExt : When → WithBot (WithTop ℚ)
  | negInf => ⊥
  | fin q => ((q : WithTop ℚ) : WithBot (WithTop ℚ))
  | posInf => ((⊤ : WithTop ℚ) : WithBot (WithTop ℚ))

theorem toExt_injective : Function.Injective toExt := by
  intro a b h
  cases a <;> cases b <;> simp_all [toExt]

instance : LinearOrder When := LinearOrder.lift' toExt toExt_injective

theorem le_iff_toExt {a b : When} : a ≤ b ↔ a.toExt ≤ b.toExt := Iff.rfl

@[simp] theorem fin_le_fin {p q : ℚ} : fin p ≤ fin q ↔ p ≤ q := by
  simp [le_iff_toExt, toExt]

@[simp] theorem negInf_le (a : When) : negInf ≤ a := by
  simp [le_iff_toExt, toExt]

@[simp] theorem le_posInf (a : When) : a ≤ posInf := by
  cases a <;> simp [le_iff_toExt, toExt]

@[simp] theorem not_posInf_le_fin (q : ℚ) : ¬ posInf ≤ fin q := by
  simp [le_iff_toExt, toExt]

end When

/-- The deadline a number names; `NaN` names none. -/
def PyFloat.toWhen? : PyFloat → Option When
  | nan => none
  | negInf => some .negInf
  | fin q => some (.fin q)
  | posInf => some .posInf

def Num.toWhen? : Num → Option When
  | int z => some (.fin z)
  | float f => f.toWhen?

/-- The exact value of a finite number. -/
def Num.value? : Num → Option ℚ
  | int z => some z
  | float (.fin q) => some q
  | float _ => none

/-- The least magnitude at which an `int` has no `float`: what rounds to
`2 ** 1024` is out of range, ties included. -/
@[irreducible] def floatOverflow : ℕ := 2 ^ 1024 - 2 ^ 970

/-- `math.isfinite`: `none` is the `OverflowError` of an `int` too large for
the conversion to `float` that the function starts with. -/
def Num.isFinite? : Num → Option Bool
  | int z => if floatOverflow ≤ z.natAbs then none else some true
  | float (.fin _) => some true
  | float _ => some false

/-- `math.isnan`, which starts with the same conversion. -/
def Num.isNan? : Num → Option Bool
  | int z => if floatOverflow ≤ z.natAbs then none else some false
  | float .nan => some true
  | float _ => some false

/-- `now + delay`, for a clock reading `now`: an `int` becomes a `float` to be
added to one, and `none` is the `OverflowError` of one too large. -/
def Num.after (now : ℚ) : Num → Option Num
  | int z =>
      if floatOverflow ≤ z.natAbs then none else some (.float (.fin (now + z)))
  | float .nan => some (.float .nan)
  | float .negInf => some (.float .negInf)
  | float (.fin q) => some (.float (.fin (now + q)))
  | float .posInf => some (.float .posInf)

end Seedloop
