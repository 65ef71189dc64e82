import Mathlib.Logic.Function.Basic
import Seedloop.Lib.Machine

/-!
# Process-wide patches: `csprng_shim` and `audit_mode`

Both context managers replace module-level functions for as long as they are
open. Entering one is three steps for each name — read the original, register
the restore with the `ExitStack`, install the wrapper — and they are not one
step: whatever can interrupt a thread can do so between any two, and so can
code that has its own idea of what a name should be bound to. Leaving runs
every restore that was registered, the last one first; an exception in between
does not stop the others. A restore, its comparison and its assignment, is one
step.

A wrapper is a closure made for one name by one entry into a context, so an
object is a wrapper, known by both, or something else. What a wrapper does when
it is called makes no difference to that.
-/

namespace Seedloop

namespace Patch

/-- The modules, and the class, that names are patched in. -/
inductive Owner where
  | os
  | random
  | time
  | thread
  deriving DecidableEq

structure Name where
  owner : Owner
  attr : String
  deriving DecidableEq

/-- `_REAL_TIME`. -/
def realTime : List Name :=
  ["time", "time_ns", "monotonic", "monotonic_ns", "perf_counter",
    "perf_counter_ns", "process_time", "process_time_ns", "thread_time",
    "thread_time_ns", "clock_gettime", "clock_gettime_ns"].map (⟨.time, ·⟩)

/-- `_CURRENT_TIME_FUNCS`, less the positions of their timestamps. -/
def currentTimeFuncs : List Name :=
  ["gmtime", "localtime", "ctime", "asctime", "strftime"].map (⟨.time, ·⟩)

/-- `_RANDOM_FUNCS`. -/
def randomFuncs : List Name :=
  ["random", "uniform", "triangular", "randint", "randrange", "choice",
    "choices", "shuffle", "sample", "getrandbits", "randbytes", "betavariate",
    "expovariate", "gammavariate", "gauss", "lognormvariate", "normalvariate",
    "vonmisesvariate", "paretovariate", "weibullvariate",
    "binomialvariate"].map (⟨.random, ·⟩)

def osUrandom : Name := ⟨.os, "urandom"⟩

def randomUrandom : Name := ⟨.random, "_urandom"⟩

def threadStart : Name := ⟨.thread, "start"⟩

/-- `_ENTROPY_SURFACES`, on an interpreter that has the names `has` says. -/
def entropySurfaces (has : Name → Bool) : List Name :=
  realTime.filter has ++ [osUrandom, randomUrandom] ++ randomFuncs.filter has

/-- A step of entering a context. -/
inductive EntryStep where
  | read (name : Name)
  | register (name : Name)
  | install (name : Name)
  deriving DecidableEq

def EntryStep.name : EntryStep → Name
  | .read name | .register name | .install name => name

inductive Context where
  | csprngShim
  | auditMode
  deriving DecidableEq

/-- The names a context patches, in order. -/
def Context.names (has : Name → Bool) : Context → List Name
  | .csprngShim => [osUrandom, randomUrandom]
  | .auditMode =>
      entropySurfaces has ++ currentTimeFuncs.filter has ++ [threadStart]

/-- What a context does between taking the lock and its `yield`. The shim reads
both originals before it registers a restore; the auditor is done with a name
before it looks at the next. -/
def Context.entry (has : Name → Bool) : Context → List EntryStep
  | .csprngShim =>
      [.read osUrandom, .read randomUrandom, .register osUrandom,
        .register randomUrandom, .install osUrandom, .install randomUrandom]
  | .auditMode => (Context.auditMode.names has).flatMap fun name =>
      [.read name, .register name, .install name]

/-- What a name can be bound to. -/
inductive Obj where
  | other (k : ℕ)
  | wrapper (ctx : ℕ) (name : Name)
  deriving DecidableEq

/-- A context that has been entered: the steps it has yet to take, the
originals it has read, the restores in its `ExitStack`, the last one first, and
whether the stack is being unwound. -/
structure Frame where
  ctx : ℕ
  context : Context
  todo : List EntryStep
  saved : Name → Option Obj
  undo : List (Name × Obj)
  exiting : Bool

/-- Between entry and exit. -/
def Frame.inBody (f : Frame) : Bool := f.todo.isEmpty && !f.exiting

end Patch

/-- What the names are bound to, and the open contexts of one thread, the
innermost first. -/
structure Patches where
  binding : Patch.Name → Patch.Obj
  frames : List Patch.Frame
  nextCtx : ℕ

namespace Patches

open Patch

/-- Nothing is patched. -/
def init (binding : Name → ℕ) : Patches where
  binding name := .other (binding name)
  frames := []
  nextCtx := 0

inductive Act where
  | enter (context : Context)
  | advance
  | leave
  | raise
  | restore
  | pop
  | rebind (name : Name) (k : ℕ)

/-- `_install`. -/
def setAttr (s : Patches) (name : Name) (value : Obj) : Patches :=
  { s with binding := Function.update s.binding name value }

/-- `restore_if_ours`. -/
def restoreIfOurs (s : Patches) (name : Name) (ours original : Obj) : Patches :=
  if s.binding name = ours then s.setAttr name original else s

/-- One step of entering the context of the innermost frame. -/
def enterStep (s : Patches) (f : Frame) (fs : List Frame) :
    EntryStep → Option Patches
  | .read name =>
      some { s with frames := { f with
        saved := Function.update f.saved name (some (s.binding name)) } :: fs }
  | .register name =>
      (f.saved name).map fun original =>
        { s with frames := { f with undo := (name, original) :: f.undo } :: fs }
  | .install name =>
      some ({ s with frames := f :: fs }.setAttr name (.wrapper f.ctx name))

/-- One move of the thread, or of code that rebinds a name. An exception may
be raised anywhere, and leaves no context but through its `ExitStack`; one
that is raised while the stack unwinds changes nothing about that. -/
def step (has : Name → Bool) (s : Patches) : Act → Option Patches
  | .enter context =>
      if s.frames.head?.all Frame.inBody then
        some { s with
          frames := ⟨s.nextCtx, context, context.entry has, fun _ => none, [],
            false⟩ :: s.frames
          nextCtx := s.nextCtx + 1 }
      else none
  | .advance =>
      match s.frames with
      | [] => none
      | f :: fs =>
          if f.exiting then none
          else match f.todo with
            | [] => none
            | x :: todo => s.enterStep { f with todo := todo } fs x
  | .leave =>
      match s.frames with
      | [] => none
      | f :: fs =>
          if f.inBody then
            some { s with frames := { f with exiting := true } :: fs }
          else none
  | .raise =>
      match s.frames with
      | [] => none
      | f :: fs =>
          some { s with
            frames := { f with todo := [], exiting := true } :: fs }
  | .restore =>
      match s.frames with
      | [] => none
      | f :: fs =>
          if f.exiting then
            match f.undo with
            | [] => none
            | (name, original) :: undo =>
                some ({ s with frames := { f with undo := undo } :: fs
                  }.restoreIfOurs name (.wrapper f.ctx name) original)
          else none
  | .pop =>
      match s.frames with
      | [] => none
      | f :: fs =>
          if f.exiting && f.undo.isEmpty then some { s with frames := fs }
          else none
  | .rebind name k => some (s.setAttr name (.other k))

end Patches

end Seedloop
