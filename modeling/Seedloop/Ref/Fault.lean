import Mathlib.Data.Finset.Basic
import Seedloop.Ref.Number

/-!
# Fault handles and the errors of the API

A handle records what the caller pinned; an unset field is `none`. An error is
the exception class with the values its message shows, so two errors are equal
when their messages are.
-/

namespace Seedloop

/-- A node's address on the simulated network. -/
abbrev Address := ℤ

/-- What the network and the time primitives raise. -/
inductive ApiError where
  /-- `address … is already bound` -/
  | alreadyBound (address : Address)
  /-- `loss must be a probability in [0, 1], got …` -/
  | lossRange (loss : Num)
  /-- `duplicate must be a probability in [0, 1], got …` -/
  | duplicateRange (duplicate : Num)
  /-- `ValueError`: `Invalid delay: NaN (not a number)` -/
  | nanDelay
  /-- `OverflowError`: `int too large to convert to float` -/
  | intTooLarge
  /-- `seconds must be a finite number >= 0, got …` -/
  | secondsRange (seconds : Num)
  /-- `partition() groups must not overlap, got …` -/
  | groupsOverlap (groups : List (Finset Address))
  /-- `partition() needs at least two bound addresses …; only … bound` -/
  | partitionNeedsTwo (bound : ℕ)
  /-- `slow_link() needs at least two bound addresses …; only … bound` -/
  | slowLinkNeedsTwo (bound : ℕ)
  /-- `slow_link() needs a bound address distinct from the pinned b …` -/
  | slowLinkNeedsA (bound : List Address)
  /-- `slow_link() needs a bound address distinct from the pinned a …` -/
  | slowLinkNeedsB (bound : List Address)
  /-- `slow_link requires two distinct addresses, got a == b == …` -/
  | slowLinkSame (a : Address)
  /-- `slow_link factor must be finite and > 1.0, got …` -/
  | slowLinkFactor (factor : Num)
  /-- `crash(at=…) must be finite and >= 0` -/
  | crashAtRange (at_ : Num)
  /-- `crash(at=…) exceeds this run_for's seconds=…; …` -/
  | crashAtExceeds (at_ seconds : Num)
  /-- `crash() needs at least one bound address for the seed to pick from` -/
  | crashNeedsOne
  /-- `concurrent recv on one endpoint is not supported` -/
  | concurrentRecv
  /-- `IndexError` of `Random.choice` on an empty sequence -/
  | emptyChoice
  deriving DecidableEq

/-- `PartitionFault | SlowLinkFault | CrashFault`. -/
inductive Fault where
  | partition (groups : List (Finset Address))
  | slowLink (a b : Option Address) (factor : Option Num)
  | crash (node : Option Address) (at_ : Option Num)
  deriving DecidableEq

/-- `_validate_groups`: the groups of one split must not overlap. -/
def validateGroups (groups : List (Finset Address)) : Except ApiError Unit :=
  go ∅ groups
where
  go (seen : Finset Address) : List (Finset Address) → Except ApiError Unit
    | [] => .ok ()
    | g :: rest =>
        if (seen ∩ g).Nonempty then .error (.groupsOverlap groups)
        else go (seen ∪ g) rest

/-- `not math.isfinite(x) or not ok(x)` raises `error`: the shape of every
check of a number. What passes is worth its exact value from then on. -/
def checkNumber (x : Num) (ok : ℚ → Bool) (error : ApiError) :
    Except ApiError ℚ :=
  match x.isFinite?, x.value? with
  | none, _ => .error .intTooLarge
  | some true, some q => if ok q then .ok q else .error error
  | some true, none | some false, _ => .error error

/-- What `call_at` asks of a deadline: `math.isnan` lets it through. -/
def checkWhen (when : Num) : Except ApiError When :=
  match when.isNan?, when.toWhen? with
  | none, _ => .error .intTooLarge
  | some false, some w => .ok w
  | some false, none | some true, _ => .error .nanDelay

/-- `_validate_fault`, for the sorted bound addresses of the transport and the
`seconds` of the `run_for` call, whose value is `window`. -/
def validateFault (bound : List Address) (seconds : Num) (window : ℚ) :
    Fault → Except ApiError Unit
  | .partition groups =>
      if groups ≠ [] then validateGroups groups
      else if bound.length < 2 then .error (.partitionNeedsTwo bound.length)
      else .ok ()
  | .slowLink a b factor => do
      match a, b with
      | none, none =>
          if bound.length < 2 then throw (.slowLinkNeedsTwo bound.length)
      | none, some b =>
          if !bound.any (· != b) then throw (.slowLinkNeedsA bound)
      | some a, none =>
          if !bound.any (· != a) then throw (.slowLinkNeedsB bound)
      | some a, some b => if a = b then throw (.slowLinkSame a)
      match factor with
      | none => pure ()
      | some x => discard (checkNumber x (1 < ·) (.slowLinkFactor x))
  | .crash node at_ => do
      match at_ with
      | none => pure ()
      | some x =>
          let at_ ← checkNumber x (0 ≤ ·) (.crashAtRange x)
          if window < at_ then throw (.crashAtExceeds x seconds)
      if node.isNone && bound.isEmpty then throw .crashNeedsOne

/-- The first pass of `run_for`: every fault is checked before any commits. -/
def validateFaults (bound : List Address) (seconds : Num) (window : ℚ) :
    List Fault → Except ApiError Unit
  | [] => .ok ()
  | f :: rest => do
      validateFault bound seconds window f
      validateFaults bound seconds window rest

/-- `if not math.isfinite(seconds) or seconds < 0`, at the head of
`run_for`. -/
def checkSeconds (seconds : Num) : Except ApiError ℚ :=
  checkNumber seconds (0 ≤ ·) (.secondsRange seconds)

end Seedloop
