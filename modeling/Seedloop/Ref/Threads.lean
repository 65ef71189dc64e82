import Seedloop.Lib.RLock
import Seedloop.Ref.Patch

/-!
# Threads that patch

The names belong to the process, and the contexts to the thread that entered
them. Each thread goes through the steps of `Patches` with its own contexts and
the bindings that all of them share; entering a context begins with taking the
lock of `exclusive_patching`, and leaving it ends with releasing it.

A wrapper is a closure over the thread its context was entered on and over the
original that the context read, and it stays one when the context is gone. What
it does for a call on its own thread is up to its context; a call on another
thread it hands on to the original.
-/

namespace Seedloop

namespace Patch

/-- What the source calls the module. -/
def Owner.text : Owner → String
  | .os => "os"
  | .random => "random"
  | .time => "time"
  | .thread => "threading.Thread"

/-- The name in an `EntropyLeakError`. -/
def Name.text (n : Name) : String :=
  if n = randomUrandom then "secrets/os.urandom"
  else n.owner.text ++ "." ++ n.attr

/-- What a call comes to: the function that the name was bound to before
anything was patched, the seeded stream of a context, or an error. -/
inductive Called where
  | real (k : ℕ)
  | seeded (ctx : ℕ)
  | entropyLeak (source : String)
  | boundary (message : String)
  deriving DecidableEq

/-- What the wrapper does for a call on its own thread, unless it hands the call
on: a calendar helper that is given a timestamp does not read the clock. -/
def Context.wrapped (ctx : ℕ) (n : Name) (timestamp : Bool) :
    Context → Option Called
  | .csprngShim => some (.seeded ctx)
  | .auditMode =>
      if n ∈ currentTimeFuncs then
        if timestamp then none else some (.entropyLeak n.text)
      else if n = threadStart then
        some (.boundary ("threading.Thread (a real thread) cannot be made " ++
          "deterministic and is out of scope in a simulated run (see " ++
          "docs/scope.md)"))
      else some (.entropyLeak n.text)

/-- What the wrappers of one context have in common. -/
structure Closure (τ : Type) where
  owner : τ
  context : Context
  saved : Name → Option Obj

end Patch

open Patch

/-- The names, the lock, the open contexts of each thread, and the closures of
every context that was ever entered. -/
structure Threads (τ : Type) where
  binding : Name → Obj
  lock : RLock τ
  frames : τ → List Frame
  closures : List (Closure τ)

namespace Threads

variable {τ : Type} [DecidableEq τ]

/-- Nothing is patched. -/
def init (binding : Name → ℕ) : Threads τ where
  binding name := .other (binding name)
  lock := .free
  frames _ := []
  closures := []

/-- What a thread does next. -/
inductive Act (τ : Type) where
  | move (t : τ) (a : Patches.Act)
  | call (t : τ) (n : Name) (timestamp : Bool)

/-- What a thread has to do with. -/
def view (s : Threads τ) (t : τ) : Patches :=
  ⟨s.binding, s.frames t, s.closures.length⟩

/-- The lock is taken first and released last. -/
def lockStep (s : Threads τ) (t : τ) : Patches.Act → Option (RLock τ)
  | .enter _ => s.lock.acquire t
  | .pop => s.lock.release t
  | _ => some s.lock

/-- What the closures of a context see is what the context has read. -/
def closuresStep (s : Threads τ) (t : τ) (frames : List Frame) :
    Patches.Act → List (Closure τ)
  | .enter context => s.closures ++ [⟨t, context, fun _ => none⟩]
  | .advance =>
      match frames with
      | [] => s.closures
      | f :: _ => s.closures.modify f.ctx fun c => { c with saved := f.saved }
  | _ => s.closures

def step (has : Name → Bool) (s : Threads τ) : Act τ → Option (Threads τ)
  | .call _ _ _ => some s
  | .move t a => do
      let lock ← s.lockStep t a
      let p ← (s.view t).step has a
      some ⟨p.binding, lock, Function.update s.frames t p.frames,
        s.closuresStep t p.frames a⟩

/-- A call of what a name is bound to. A wrapper is made after its original, so
there are not more of them to go through than contexts that were entered. -/
def callObj (s : Threads τ) (t : τ) (timestamp : Bool) : ℕ → Obj → Option Called
  | _, .other k => some (.real k)
  | 0, .wrapper _ _ => none
  | fuel + 1, .wrapper ctx n => do
      let c ← s.closures[ctx]?
      let own := if c.owner = t then c.context.wrapped ctx n timestamp else none
      match own with
      | some called => some called
      | none => do
          let original ← c.saved n
          s.callObj t timestamp fuel original

/-- A call of a name by a thread. -/
def call (s : Threads τ) (t : τ) (n : Name) (timestamp : Bool) :
    Option Called :=
  s.callObj t timestamp s.closures.length (s.binding n)

end Threads

end Seedloop
