import Seedloop.Proofs.Commit

/-!
# What escapes from validation

`_validate_fault` means to answer anything it is given with a `SeedloopError`.
What it asks of a handle is a list of requirements, each asked for once those
before it are met, and a list of handles asks for those of one after the other.
A requirement that is not met gets in the way of the error it is to be rejected
with in two cases: asking for it raises, as `math.isfinite` does for what is no
number and `list` for what has no end in sight, or writing the error does, as
`repr` can. Only a `TypeError` of the two conversions is caught.
-/

namespace Seedloop

/-- Something a handle has to meet. -/
structure Requirement where
  met : Bool
  /-- What asking for it raises. -/
  raises : Option ExcClass
  /-- What the error shows if it is not met. -/
  shown : List Shown

/-- What it is rejected with: what asking for it raises, or else what writing
the error raises, or else the error. -/
def Requirement.rejection (texts : Shown → Option ExcClass) (r : Requirement) :
    ExcClass :=
  r.raises.getD ((r.shown.findSome? texts).getD .seedloopError)

/-- The requirement that is not met first. -/
def firstUnmet (rs : List Requirement) : Option Requirement :=
  rs.find? fun r => !r.met

namespace PyVal

end PyVal

/-- A result of validation, and the requirement it comes from. -/
inductive Judged (texts : Shown → Option ExcClass) :
    Except HandleError Unit → Option Requirement → Prop
  | ok : Judged texts (.ok ()) none
  | error {e : HandleError} {r : Requirement}
      (h : e.excClass texts = r.rejection texts) :
      Judged texts (.error e) (some r)

section

variable {texts : Shown → Option ExcClass} {x y : Except HandleError Unit}
  {r : Requirement} {rs rs' : List Requirement}

theorem Judged.met (hr : r.met = true) (h : Judged texts x (firstUnmet rs)) :
    Judged texts x (firstUnmet (r :: rs)) := by
  rwa [firstUnmet, List.find?_cons_of_neg (by simp [hr])]

theorem Judged.bind (h : Judged texts x (firstUnmet rs))
    (h' : x = .ok () → Judged texts y (firstUnmet rs')) :
    Judged texts (x >>= fun _ => y) (firstUnmet (rs ++ rs')) := by
  rw [firstUnmet, List.find?_append]
  change Judged texts _ ((firstUnmet rs).or (firstUnmet rs'))
  generalize firstUnmet rs = o at h
  cases h with
  | ok => exact h' rfl
  | error h => exact .error h

end

/-! ## One handle -/

section

variable {texts : Shown → Option ExcClass} {bound : List Address}
  {seconds : Num} {window : ℚ}

end

end Seedloop
