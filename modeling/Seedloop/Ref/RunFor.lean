import Mathlib.Data.Finset.Sort
import Seedloop.Ref.Net

/-!
# Scheduling faults: `run_for`

Two passes over the list of handles: every one is checked, then each one is
resolved from the `"faults"` stream and put on the timer heap. Resolving is
kept apart from scheduling, since the first is draws and nothing else and the
second draws nothing.

A bipartition that never comes out two-sided keeps `run_for` from ever
returning, so the result is an `Option` of the fuel given to that draw.
`IndexError` is carried too: that validation excludes it is a theorem and not
a convention.
-/

namespace Seedloop

/-- A fault with every field settled, its times relative to the call. -/
inductive Resolved where
  | partition (groups : List (Finset Address)) (start stop : ℚ)
  | slowLink (a b : Address) (factor : ℚ) (start stop : ℚ)
  | crash (node : Address) (at_ : ℚ)
  deriving DecidableEq

/-- The callbacks of a fault, in the order they are scheduled in. -/
def Resolved.callbacks (i : ℕ) : Resolved → List FaultCallback
  | .partition groups _ _ => [.beginFaultPartition i groups, .endFaultPartition i]
  | .slowLink a b factor _ _ => [.beginSlowLink i {a, b} factor, .endSlowLink i]
  | .crash node _ => [.beginCrash i node]

/-- The timers of a fault: when each is due, and what it runs. -/
def Resolved.timers (i : ℕ) (now : ℚ) : Resolved → List (ℚ × FaultCallback)
  | .partition groups start stop =>
      [(now + start, .beginFaultPartition i groups),
        (now + stop, .endFaultPartition i)]
  | .slowLink a b factor start stop =>
      [(now + start, .beginSlowLink i {a, b} factor),
        (now + stop, .endSlowLink i)]
  | .crash node at_ => [(now + at_, .beginCrash i node)]

/-- The event that says a fault was scheduled. -/
def Resolved.scheduled {μ : Type} (i : ℕ) (now : ℚ) : Resolved → Event μ
  | .partition groups start stop =>
      .faultPartitionScheduled i (groups.map fun g => g.sort (· ≤ ·))
        (now + start) (now + stop)
  | .slowLink a b factor start stop =>
      .faultSlowLinkScheduled i a b factor (now + start) (now + stop)
  | .crash node at_ => .faultCrashScheduled i node (now + at_)

namespace Net

variable {ρ μ υ : Type}

/-- What `_commit_partition_fault`, `_commit_slow_link_fault` and
`_commit_crash_fault` do once everything is drawn: take an id, record the
schedule, arm the timers. -/
def schedule (s : Net ρ μ υ) (now : ℚ) (r : Resolved) : Net ρ μ υ :=
  let faultId := s.nextFaultId
  let s := { s with nextFaultId := s.nextFaultId + 1 }
  match r with
  | .partition groups start stop =>
      ((s.recordAt now (.faultPartitionScheduled faultId
          (groups.map fun g => g.sort (· ≤ ·)) (now + start) (now + stop))).callAt
        (now + start) (.fault (.beginFaultPartition faultId groups))).callAt
        (now + stop) (.fault (.endFaultPartition faultId))
  | .slowLink a b factor start stop =>
      ((s.recordAt now (.faultSlowLinkScheduled faultId a b factor
          (now + start) (now + stop))).callAt
        (now + start) (.fault (.beginSlowLink faultId {a, b} factor))).callAt
        (now + stop) (.fault (.endSlowLink faultId))
  | .crash node at_ =>
      (s.recordAt now (.faultCrashScheduled faultId node (now + at_))).callAt
        (now + at_) (.fault (.beginCrash faultId node))

/-- `asyncio.sleep(seconds)` by a task: the future it waits on is known by the
number of the handle that ends the wait. -/
def sleep (s : Net ρ μ υ) (seconds : ℚ) (k : υ) : Net ρ μ υ :=
  let fut := s.loop.nextHandle
  if 0 < seconds then
    { s with sleeping := s.sleeping.insert fut k }.callLater seconds
      (.wake fut k)
  else { s with loop := s.loop.callSoon (.resume fut k) }

section Draws

variable [Random ρ]

/-- `self._faults.choice(seq)`. -/
def faultChoice (s : Net ρ μ υ) (seq : List Address) :
    Net ρ μ υ × Option Address :=
  match Random.choice seq s.faultsRng with
  | none => (s, none)
  | some (a, g) => ({ s with faultsRng := g }, some a)

/-- `start = uniform(0.0, seconds)`, `end = uniform(start, seconds)`. -/
def drawWindow (s : Net ρ μ υ) (seconds : ℚ) : (ℚ × ℚ) × Net ρ μ υ :=
  match s.faultUniform 0 seconds with
  | (start, s) =>
      match s.faultUniform start seconds with
      | (stop, s) => ((start, stop), s)

/-- The draws of `_commit_partition_fault`. -/
def resolvePartition (s : Net ρ μ υ) (fuel : ℕ)
    (groups : List (Finset Address)) (seconds : ℚ) :
    Option (Net ρ μ υ × Resolved) :=
  let drawn :=
    if groups ≠ [] then some (groups, s)
    else (drawBipartition s.boundAddresses fuel s.faultsRng).map
      fun (groups, g) => (groups, { s with faultsRng := g })
  drawn.map fun (groups, s) =>
    match s.drawWindow seconds with
    | ((start, stop), s) => (s, .partition groups start stop)

/-- The two ends of a slow link: each open side is chosen away from the other
as soon as that one is known. -/
def resolvePair (s : Net ρ μ υ) : Option Address → Option Address →
    Net ρ μ υ × Option (Address × Address)
  | some a, some b => (s, some (a, b))
  | none, some b =>
      match s.faultChoice (s.boundAddresses.filter (· ≠ b)) with
      | (s, a) => (s, a.map fun a => (a, b))
  | some a, none =>
      match s.faultChoice (s.boundAddresses.filter (· ≠ a)) with
      | (s, b) => (s, b.map fun b => (a, b))
  | none, none =>
      match s.faultChoice s.boundAddresses with
      | (s, none) => (s, none)
      | (s, some a) =>
          match s.faultChoice (s.boundAddresses.filter (· ≠ a)) with
          | (s, b) => (s, b.map fun b => (a, b))

/-- A pinned number field, or the draw that stands in for it. -/
def pinnedOr (s : Net ρ μ υ) (pinned : Option Num) (a b : ℚ) :
    ℚ × Net ρ μ υ :=
  match pinned with
  | some x => (x.value?.getD 0, s)
  | none => s.faultUniform a b

/-- The draws of `_commit_slow_link_fault`. -/
def resolveSlowLink (s : Net ρ μ υ) (a b : Option Address)
    (factor : Option Num) (seconds : ℚ) : Net ρ μ υ × Option Resolved :=
  match s.resolvePair a b with
  | (s, none) => (s, none)
  | (s, some (a, b)) =>
      match s.pinnedOr factor 2 50 with
      | (factor, s) =>
          match s.drawWindow seconds with
          | ((start, stop), s) => (s, some (.slowLink a b factor start stop))

/-- The draws of `_commit_crash_fault`. -/
def resolveCrash (s : Net ρ μ υ) (node : Option Address) (at_ : Option Num)
    (seconds : ℚ) : Net ρ μ υ × Option Resolved :=
  match s.pinnedOr at_ 0 seconds with
  | (at_, s) =>
      match node with
      | some node => (s, some (.crash node at_))
      | none =>
          match s.faultChoice s.boundAddresses with
          | (s, node) => (s, node.map fun node => .crash node at_)

/-- Everything a commit draws for one fault. -/
def resolve (s : Net ρ μ υ) (fuel : ℕ) (seconds : ℚ) :
    Fault → Option (Net ρ μ υ × Option Resolved)
  | .partition groups =>
      (s.resolvePartition fuel groups seconds).map fun (s, r) => (s, some r)
  | .slowLink a b factor => some (s.resolveSlowLink a b factor seconds)
  | .crash node at_ => some (s.resolveCrash node at_ seconds)

/-- `_commit_fault`. -/
def commitFault (s : Net ρ μ υ) (fuel : ℕ) (now seconds : ℚ) (f : Fault) :
    Option (Net ρ μ υ × Except ApiError Unit) :=
  (s.resolve fuel seconds f).map fun
    | (s, none) => (s, .error .emptyChoice)
    | (s, some r) => (s.schedule now r, .ok ())

/-- The second pass of `run_for`. -/
def commitFaults (s : Net ρ μ υ) (fuel : ℕ) (seconds : ℚ) :
    List Fault → Option (Net ρ μ υ × Except ApiError Unit)
  | [] => some (s, .ok ())
  | f :: rest =>
      match s.commitFault fuel s.loop.time seconds f with
      | none => none
      | some (s, .error e) => some (s, .error e)
      | some (s, .ok ()) => s.commitFaults fuel seconds rest

/-- Both passes of `run_for`: the value of `seconds` once everything is
scheduled. -/
def prepareRunFor (s : Net ρ μ υ) (fuel : ℕ) (seconds : Num)
    (faults : List Fault) : Option (Net ρ μ υ × Except ApiError ℚ) :=
  match checkSeconds seconds with
  | .error e => some (s, .error e)
  | .ok window =>
      match validateFaults s.boundAddresses seconds window faults with
      | .error e => some (s, .error e)
      | .ok () =>
          (s.commitFaults fuel window faults).map fun
            | (s, .error e) => (s, .error e)
            | (s, .ok ()) => (s, .ok window)

/-- `World.run_for` up to where its task suspends. -/
def runFor (s : Net ρ μ υ) (fuel : ℕ) (seconds : Num) (faults : List Fault)
    (k : υ) : Option (Net ρ μ υ × Except ApiError Unit) :=
  (s.prepareRunFor fuel seconds faults).map fun
    | (s, .error e) => (s, .error e)
    | (s, .ok window) => (s.sleep window k, .ok ())

end Draws

end Net

end Seedloop
