import Seedloop.Ref.RunFor

/-!
# Fault handles as a caller can build them

`PartitionFault`, `SlowLinkFault` and `CrashFault` are public dataclasses, so
their fields hold whatever they were given, and `_validate_fault` looks before
it believes. `PyVal` keeps of a value what that function and the commit can see
of it. Of the builtin types this is the value itself: whether it is `None`,
which number it is, what iterating it yields and whether it can be iterated
twice, whether it may sit in a set. An object of another class answers each
question as its class has it, with an exception as well as anything, and
answers alike whenever it is asked.

Validation iterates the groups of a partition and the commit iterates them
again, so what an accepted handle commits is what validation leaves of it.
An iterator it has run through is empty by then. No two fields are taken to
share one.

A handle's numbers are used after it is accepted: the time of a crash is added
to the clock by the commit, and the factor of a slow link multiplies latencies
from the time its window opens. A `Decimal` does neither with a `float`.
-/

namespace Seedloop

/-- The classes of the exceptions that come out of validation and commit. -/
inductive ExcClass where
  | seedloopError
  | typeError
  | overflowError
  | valueError
  | indexError
  | other (k : ℕ)
  deriving DecidableEq

/-- An exception that comes out of a value that is asked for something. -/
structure PyExc where
  cls : ExcClass
  id : ℕ
  deriving DecidableEq

/-- Python's own, where a value is not of the kind that was asked for. -/
def PyExc.typeError : PyExc := ⟨.typeError, 0⟩

/-- What an object of a class of its own answers, an exception where there is
one: `bool`, `hash`, `isinstance`, what `list` asks for before it iterates,
what ends an iteration, `math.isfinite`, and the comparisons with a number, the
sum with a `float` and the product with one. The last three go by its value
where they do not raise. -/
structure PyObject where
  truthy : Except PyExc Bool
  hash : Option PyExc
  isInstance : Option PyExc
  len : Option PyExc
  stops : Option PyExc
  isFinite : Except PyExc Bool
  value : ℚ
  compares : Num → Option PyExc
  adds : Option PyExc
  times : Option PyExc

/-- A value in a field of a handle. `list` stands for every container that
cannot be hashed, `tuple` for every one that can if its items can (a
`frozenset`, a `range`, `bytes`), `iterator` for what iterates once, `object`
for the rest, with what iterating it yields before it stops. -/
inductive PyVal where
  | none
  | num (x : Num)
  | str (chars : List Char)
  | list (items : List PyVal)
  | tuple (items : List PyVal)
  | iterator (items : List PyVal)
  | object (o : PyObject) (items : List PyVal)

namespace PyVal

/-- `bool(v)`. -/
def truthy : PyVal → Except PyExc Bool
  | none => .ok false
  | num (.int z) => .ok (z ≠ 0)
  | num (.float f) => .ok (f ≠ .fin 0)
  | str chars => .ok !chars.isEmpty
  | list items | tuple items => .ok !items.isEmpty
  | iterator _ => .ok true
  | object o _ => o.truthy

/-- What iterating a value yields, and what it raises then. -/
def iterate : PyVal → List PyVal × Option PyExc
  | str chars => (chars.map fun c => str [c], Option.none)
  | list items | tuple items | iterator items => (items, Option.none)
  | none | num _ => ([], some .typeError)
  | object o items => (items, o.stops)

/-- What `list` asks of a value before it iterates it: how long it is. -/
def len : PyVal → Option PyExc
  | object o _ => o.len
  | _ => Option.none

/-- `list(v)`. -/
def toList (v : PyVal) : Except PyExc (List PyVal) :=
  match v.len, v.iterate with
  | some e, _ => .error e
  | Option.none, (_, some e) => .error e
  | Option.none, (items, Option.none) => .ok items

/-- What is left of a value that was iterated to its end. -/
def spent : PyVal → PyVal
  | iterator _ => iterator []
  | v => v

/-- What `hash(v)` raises. -/
def hash : PyVal → Option PyExc
  | list _ => some .typeError
  | tuple items => go items
  | object o _ => o.hash
  | _ => Option.none
where
  go : List PyVal → Option PyExc
    | [] => Option.none
    | v :: vs =>
        match hash v with
        | some e => some e
        | Option.none => go vs

/-- `v == w`, for two numbers. -/
def sameNumber : PyVal → PyVal → Bool
  | num x, num y => x.value?.isSome && x.value? = y.value?
  | _, _ => false

/-- The items of `set(v)`, first come first kept, each of which is hashed as it
comes. Only numbers are compared: a set with anything else in it is refused
whatever it holds. -/
def toSet (v : PyVal) : Except PyExc (List PyVal) :=
  match v.iterate with
  | (items, stops) =>
      match items.findSome? hash, stops with
      | some e, _ => .error e
      | Option.none, some e => .error e
      | Option.none, Option.none =>
          .ok (items.foldl
            (fun kept x =>
              if kept.any (sameNumber · x) then kept else kept ++ [x])
            [])

/-- What `isinstance` raises: the `__class__` of an object can be code. -/
def isInstance : PyVal → Option PyExc
  | object o _ => o.isInstance
  | _ => Option.none

/-- `isinstance(v, int)`, and which. -/
def address? : PyVal → Option Address
  | num (.int z) => some z
  | _ => Option.none

/-- What `all(isinstance(addr, int) for addr in addrs)` raises. -/
def areInstances : List PyVal → Option PyExc
  | [] => Option.none
  | v :: vs =>
      match v.isInstance with
      | some e => some e
      | Option.none =>
          if v.address?.isSome then areInstances vs else Option.none

/-- `all(isinstance(addr, int) for addr in addrs)`, and which. -/
def addresses? : List PyVal → Option (Finset Address)
  | [] => some ∅
  | v :: vs =>
      match v.address?, addresses? vs with
      | some a, some as => some (insert a as)
      | _, _ => Option.none

end PyVal

/-- What validation and the commit can raise: an error of the API, with the
texts that show a value as it was given, or what comes out of a value. -/
inductive HandleError where
  | api (e : ApiError)
  /-- `partition() groups must be an iterable of groups: …` -/
  | groupsNotIterable (exc : PyExc)
  /-- `partition() groups must be iterables of addresses: …` -/
  | groupNotIterable (exc : PyExc)
  /-- `partition() groups must contain only addresses, got …` -/
  | groupNotAddresses (group : PyVal)
  /-- `partition() groups must not overlap, got …` -/
  | groupsOverlap (groups : PyVal)
  /-- `slow_link a must be an address, got …` -/
  | slowLinkA (a : PyVal)
  /-- `slow_link b must be an address, got …` -/
  | slowLinkB (b : PyVal)
  /-- `slow_link factor must be finite and > 1.0, got …` -/
  | slowLinkFactor (factor : PyVal)
  /-- `crash node must be an address, got …` -/
  | crashNode (node : PyVal)
  /-- `crash(at=…) must be finite and >= 0` -/
  | crashAtRange (at_ : PyVal)
  /-- `crash(at=…) exceeds this run_for's seconds=…; …` -/
  | crashAtExceeds (at_ : PyVal) (seconds : Num)
  /-- `unrecognized fault handle: …` -/
  | unrecognized (handle : PyVal)
  | raised (exc : PyExc)

/-- What the text of an error is made of: a value with `!r`, a value as it is,
an exception as it is. -/
inductive Shown where
  | repr (v : PyVal)
  | str (v : PyVal)
  | exc (e : PyExc)

/-- A group of addresses, as the value a caller passes. -/
def PyVal.ofGroup (g : Finset Address) : PyVal :=
  .tuple ((g.sort (α := ℤ) (· ≤ ·)).map fun a => .num (.int a))

/-- What the text of an error shows. -/
def ApiError.shown : ApiError → List Shown
  | .alreadyBound a | .slowLinkSame a => [.repr (.num (.int a))]
  | .lossRange x | .duplicateRange x | .secondsRange x | .slowLinkFactor x =>
      [.repr (.num x)]
  | .crashAtRange x => [.str (.num x)]
  | .crashAtExceeds at_ seconds => [.str (.num at_), .str (.num seconds)]
  | .slowLinkNeedsA bound | .slowLinkNeedsB bound =>
      [.repr (.list (bound.map fun a => .num (.int a)))]
  | .groupsOverlap groups =>
      [.repr (.tuple (groups.map PyVal.ofGroup))]
  | .nanDelay | .intTooLarge | .partitionNeedsTwo _ | .slowLinkNeedsTwo _
  | .crashNeedsOne | .concurrentRecv | .emptyChoice => []

def HandleError.shown : HandleError → List Shown
  | .api e => e.shown
  | .groupsNotIterable e | .groupNotIterable e => [.exc e]
  | .groupNotAddresses v | .groupsOverlap v | .slowLinkA v | .slowLinkB v
  | .slowLinkFactor v | .crashNode v | .unrecognized v => [.repr v]
  | .crashAtRange v => [.str v]
  | .crashAtExceeds v seconds => [.str v, .str (.num seconds)]
  | .raised _ => []

/-- What is raised where the source raises the error: building the text comes
first, and `texts` says what that raises, such as the `ValueError` of an `int`
with more digits than the interpreter shows. -/
def HandleError.excClass (texts : Shown → Option ExcClass) :
    HandleError → ExcClass
  | .raised e => e.cls
  | .api .intTooLarge => .overflowError
  | .api .nanDelay => .valueError
  | .api .emptyChoice => .indexError
  | e => (e.shown.findSome? texts).getD .seedloopError

/-- An element of the list given to `run_for`. -/
inductive FaultHandle where
  | partition (groups : PyVal)
  | slowLink (a b factor : PyVal)
  | crash (node at_ : PyVal)
  | other (v : PyVal)

/-- `except TypeError` around a conversion, and the error raised instead. -/
def PyExc.caught (e : PyExc) (error : HandleError) : HandleError :=
  if e.cls = .typeError then error else .raised e

/-- `_validate_groups` on the groups as given. -/
def PyVal.validateGroups (groups : PyVal) : Except HandleError Unit :=
  match groups.toList with
  | .error e => .error (e.caught (.groupsNotIterable e))
  | .ok gs => go ∅ gs
where
  go (seen : Finset Address) : List PyVal → Except HandleError Unit
    | [] => .ok ()
    | g :: rest =>
        match g.toSet with
        | .error e => .error (e.caught (.groupNotIterable e))
        | .ok items =>
            match PyVal.areInstances items, PyVal.addresses? items with
            | some e, _ => .error (.raised e)
            | Option.none, Option.none => .error (.groupNotAddresses g)
            | Option.none, some addrs =>
                if (seen ∩ addrs).Nonempty then .error (.groupsOverlap groups)
                else go (seen ∪ addrs) rest

/-- A field that pins an address: `None`, or an `int`, or an error. -/
def PyVal.pinned (v : PyVal) (error : HandleError) :
    Except HandleError (Option Address) :=
  match v with
  | .none => .ok Option.none
  | v =>
      match v.isInstance, v.address? with
      | some e, _ => .error (.raised e)
      | Option.none, some a => .ok (some a)
      | Option.none, Option.none => .error error

/-- The number a field holds. -/
def PyVal.num? : PyVal → Option Num
  | .num x => some x
  | .object o _ => some (.float (.fin o.value))
  | _ => Option.none

/-- A field that pins a number of Python's own: `math.isfinite` raises on
anything else. -/
def PyVal.number : PyVal → Except HandleError (Option Num)
  | .none => .ok Option.none
  | .num x => .ok (some x)
  | _ => .error (.raised .typeError)

/-- `not math.isfinite(o) or …`, with a comparison with `limit`. -/
def PyObject.checkNumber (o : PyObject) (limit : Num) (ok : ℚ → Bool)
    (error : HandleError) : Except HandleError Unit :=
  match o.isFinite with
  | .error e => .error (.raised e)
  | .ok false => .error error
  | .ok true =>
      match o.compares limit with
      | some e => .error (.raised e)
      | none => if ok o.value then .ok () else .error error

/-- `if fault.at > seconds`. -/
def PyObject.checkLimit (o : PyObject) (seconds : Num) (window : ℚ)
    (error : HandleError) : Except HandleError Unit :=
  match o.compares seconds with
  | some e => .error (.raised e)
  | none => if window < o.value then .error error else .ok ()

/-- What `_validate_fault` raises once the shape of a handle is known. -/
def liftApi {α : Type} : Except ApiError α → Except HandleError α
  | .ok a => .ok a
  | .error e => .error (.api e)

namespace FaultHandle

/-- `_validate_fault`. Whether an address has one is asked of `a`, `b` and
`node` before anything else; a number field comes after every check of the
addresses. -/
def validate (bound : List Address) (seconds : Num) (window : ℚ) :
    FaultHandle → Except HandleError Unit
  | .partition groups =>
      match groups.truthy with
      | .error e => .error (.raised e)
      | .ok true => groups.validateGroups
      | .ok false =>
          liftApi (validateFault bound seconds window (.partition []))
  | .slowLink a b factor => do
      let a ← a.pinned (.slowLinkA a)
      let b ← b.pinned (.slowLinkB b)
      liftApi (validateFault bound seconds window (.slowLink a b none))
      match factor with
      | .object o _ =>
          o.checkNumber (.float (.fin 1)) (1 < ·) (.slowLinkFactor factor)
      | factor =>
          let factor ← factor.number
          liftApi (validateFault bound seconds window (.slowLink a b factor))
  | .crash node at_ => do
      let node ← node.pinned (.crashNode node)
      match at_ with
      | .object o _ =>
          o.checkNumber (.int 0) (0 ≤ ·) (.crashAtRange at_)
          o.checkLimit seconds window (.crashAtExceeds at_ seconds)
          liftApi (validateFault bound seconds window (.crash node none))
      | at_ =>
          let at_ ← at_.number
          liftApi (validateFault bound seconds window (.crash node at_))
  | .other v =>
      match v.isInstance with
      | some e => .error (.raised e)
      | none => .error (.unrecognized v)

/-- The first pass of `run_for`. -/
def validateAll (bound : List Address) (seconds : Num) (window : ℚ) :
    List FaultHandle → Except HandleError Unit
  | [] => .ok ()
  | f :: rest => do
      f.validate bound seconds window
      validateAll bound seconds window rest

/-- What validation leaves of the groups it accepted. -/
def spentGroups : PyVal → PyVal
  | .list items => .list (items.map PyVal.spent)
  | .tuple items => .tuple (items.map PyVal.spent)
  | .object o items => .object o (items.map PyVal.spent)
  | v => v.spent

/-- `set(g)`, and what it has in it once it is validated. -/
def addressSet (g : PyVal) : Except PyExc (Finset Address) :=
  match g.toSet with
  | .error e => .error e
  | .ok items =>
      match PyVal.addresses? items with
      | some addrs => .ok addrs
      | none => .error .typeError

/-- `[set(g) for g in groups]`. -/
def groupSets (groups : PyVal) : Except PyExc (List (Finset Address)) :=
  match groups.iterate with
  | (gs, stops) =>
      match gs.mapM addressSet, stops with
      | .error e, _ => .error e
      | .ok _, some e => .error e
      | .ok sets, none => .ok sets

/-- What `now + at` raises, for a crash with a time. -/
def adds : FaultHandle → Option PyExc
  | .crash _ (.object o _) => o.adds
  | _ => none

/-- What `factor *= link_factor` raises, for a slow link with a factor. -/
def times : FaultHandle → Option PyExc
  | .slowLink _ _ (.object o _) => o.times
  | _ => none

end FaultHandle

namespace Net

variable {ρ μ υ : Type} [Random ρ]

/-- The draws of `_commit_partition_fault` for the groups validation has
already gone through. -/
def resolveSplit (s : Net ρ μ υ) (fuel : ℕ) (groups : PyVal) (seconds : ℚ) :
    Option (Net ρ μ υ × Except HandleError Resolved) :=
  match groups.truthy with
  | .error e => some (s, .error (.raised e))
  | .ok true =>
      match FaultHandle.groupSets (FaultHandle.spentGroups groups) with
      | .error e => some (s, .error (.raised e))
      | .ok groups =>
          match s.drawWindow seconds with
          | ((start, stop), s) => some (s, .ok (.partition groups start stop))
  | .ok false =>
      (s.resolvePartition fuel [] seconds).map fun (s, r) => (s, .ok r)

/-- What `_commit_fault` draws for one handle. -/
def resolveHandle (s : Net ρ μ υ) (fuel : ℕ) (seconds : ℚ) :
    FaultHandle → Option (Net ρ μ υ × Except HandleError (Option Resolved))
  | .partition groups =>
      (s.resolveSplit fuel groups seconds).map fun (s, r) => (s, r.map some)
  | .slowLink a b factor =>
      match s.resolveSlowLink a.address? b.address? factor.num? seconds with
      | (s, none) => some (s, .error (.api .emptyChoice))
      | (s, some r) => some (s, .ok (some r))
  | .crash node at_ =>
      match s.resolveCrash node.address? at_.num? seconds with
      | (s, none) => some (s, .error (.api .emptyChoice))
      | (s, some r) => some (s, .ok (some r))
  | .other _ => some (s, .ok none)

/-- `_commit_fault`. What is no handle is passed over. The time of a crash is
added to the clock when the crash has its id. A slow link's factor is kept by
its value; what comes of a send on the link is `slowFactorOf`. -/
def commitHandle (s : Net ρ μ υ) (fuel : ℕ) (now seconds : ℚ)
    (f : FaultHandle) : Option (Net ρ μ υ × Except HandleError Unit) :=
  (s.resolveHandle fuel seconds f).map fun
    | (s, .error e) => (s, .error e)
    | (s, .ok none) => (s, .ok ())
    | (s, .ok (some r)) =>
        match f.adds with
        | some e =>
            ({ s with nextFaultId := s.nextFaultId + 1 }, .error (.raised e))
        | none => (s.schedule now r, .ok ())

/-- The second pass of `run_for`. -/
def commitHandles (s : Net ρ μ υ) (fuel : ℕ) (seconds : ℚ) :
    List FaultHandle → Option (Net ρ μ υ × Except HandleError Unit)
  | [] => some (s, .ok ())
  | f :: rest =>
      match s.commitHandle fuel s.loop.time seconds f with
      | none => none
      | some (s, .error e) => some (s, .error e)
      | some (s, .ok ()) => s.commitHandles fuel seconds rest

/-- Both passes of `run_for`. -/
def prepareHandles (s : Net ρ μ υ) (fuel : ℕ) (seconds : Num)
    (faults : List FaultHandle) : Option (Net ρ μ υ × Except HandleError ℚ) :=
  match checkSeconds seconds with
  | .error e => some (s, .error (.api e))
  | .ok window =>
      match FaultHandle.validateAll s.boundAddresses seconds window faults with
      | .error e => some (s, .error e)
      | .ok () =>
          (s.commitHandles fuel window faults).map fun
            | (s, .error e) => (s, .error e)
            | (s, .ok ()) => (s, .ok window)

/-- `World.run_for` up to where its task suspends. -/
def runForHandles (s : Net ρ μ υ) (fuel : ℕ) (seconds : Num)
    (faults : List FaultHandle) (k : υ) :
    Option (Net ρ μ υ × Except HandleError Unit) :=
  (s.prepareHandles fuel seconds faults).map fun
    | (s, .error e) => (s, .error e)
    | (s, .ok window) => (s.sleep window k, .ok ())

end Net

/-- `factor *= link_factor`. -/
def PyVal.times (factor : ℚ) : PyVal → Except PyExc ℚ
  | .num x => .ok (factor * x.value?.getD 1)
  | .object o _ =>
      match o.times with
      | some e => .error e
      | Option.none => .ok (factor * o.value)
  | _ => .error .typeError

/-- `_slow_factor`, on the open slow links with their factors as they were
given or drawn, in the order their windows opened in. -/
def slowFactorOf (open_ : List (Finset Address × PyVal)) (src dst : Address) :
    Except PyExc ℚ :=
  open_.foldlM
    (fun factor link =>
      if link.1 = {src, dst} then link.2.times factor else .ok factor)
    1

end Seedloop
