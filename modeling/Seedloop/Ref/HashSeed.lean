import Mathlib.Data.Int.Notation
import Mathlib.Data.Nat.Notation

/-!
# The hash-seed launcher

`ensure_hash_seed` and the chain of interpreters it launches. Of an environment
only two variables are looked at, and only the launcher sets them. An
interpreter that is replaced (`execve`) and one that waits for its child and
exits with its code (`subprocess.run`) are alike here: neither gets past the
call, and the next interpreter of the chain runs the same program from the
start.

What a root seed pins is a hash, and any function will do for it.
-/

namespace Seedloop

/-- The two variables of `os.environ`. -/
structure Environ where
  reexecGuard : Option String
  pythonHashSeed : Option String
  deriving DecidableEq

variable (hashSeedFor : ℤ → ℕ)

/-- `target`. -/
def hashSeedTarget (rootSeed : ℤ) : String := (hashSeedFor rootSeed).repr

/-- `ensure_hash_seed`: nothing when it returns, or the environment of the
interpreter that it launches. -/
def ensureHashSeed (environ : Environ) (rootSeed : ℤ) : Option Environ :=
  let target := hashSeedTarget hashSeedFor rootSeed
  if environ.reexecGuard = some target ∨
      environ.pythonHashSeed = some target then none
  else some
    { environ with pythonHashSeed := some target, reexecGuard := some target }

/-- The entry point of a program that calls it on each of a list of seeds: the
calls that return, and the interpreter launched by the one that does not. -/
def runEntryPoint (environ : Environ) : List ℤ → List ℤ × Option Environ
  | [] => ([], none)
  | rootSeed :: rootSeeds =>
      match ensureHashSeed hashSeedFor environ rootSeed with
      | some child => ([], some child)
      | none =>
          match runEntryPoint environ rootSeeds with
          | (returned, child) => (rootSeed :: returned, child)

/-- The environment of the `n`-th interpreter in the chain, if it gets there. -/
def interpreter (rootSeeds : List ℤ) (environ : Environ) : ℕ → Option Environ
  | 0 => some environ
  | n + 1 => (interpreter rootSeeds environ n).bind fun environ =>
      (runEntryPoint hashSeedFor environ rootSeeds).2

end Seedloop
