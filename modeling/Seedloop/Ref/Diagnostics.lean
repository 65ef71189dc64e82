import Mathlib.Data.List.Sort
import Mathlib.Data.String.Basic

/-!
# Naming the tasks that are left

`describe_tasks` of `_loop.py`, which the messages about a deadlock, a task
that outlives its cancellation and an exceeded limit end with. What it reads
of a task is a record here: the stamp of `create_task`, if it has one, the
names of its coroutine, and the type of what it awaits.
-/

namespace Seedloop

/-- A coroutine object: its `__qualname__`, if it has one, and the name of its
type. -/
structure Coro where
  qualname : Option String
  typeName : String
  deriving DecidableEq

/-- What `describe_tasks` reads of a task. `seq` is `_sl_seq`, and `waiting`
the name of the type of `_fut_waiter`. -/
structure TaskInfo where
  done : Bool
  seq : Option ℤ
  coro : Coro
  waiting : Option String
  deriving DecidableEq

/-- `_LISTED_TASKS`. -/
def listedTasks : ℕ := 20

/-- `_describe`. -/
def TaskInfo.describe (task : TaskInfo) : String :=
  let name := task.coro.qualname.getD task.coro.typeName
  let index := (task.seq.map toString).getD "?"
  let waits := (task.waiting.map (" awaiting " ++ ·)).getD ""
  "#" ++ index ++ " " ++ name ++ waits

/-- `live`. -/
def liveTasks (tasks : List TaskInfo) : List TaskInfo :=
  tasks.filter fun t => !t.done

/-- `indexed`. -/
def indexedTasks (live : List TaskInfo) : List TaskInfo :=
  (live.filter (·.seq.isSome)).insertionSort fun s t =>
    s.seq.getD 0 ≤ t.seq.getD 0

/-- `unindexed`. -/
def unindexedTexts (live : List TaskInfo) : List String :=
  ((live.filter (·.seq.isNone)).map TaskInfo.describe).insertionSort (· ≤ ·)

/-- `describe_tasks`, from `parts` on. -/
def listing (parts : List String) (limit : ℕ) : String :=
  let shown := parts.take limit ++
    if limit < parts.length then
      ["and " ++ toString (parts.length - limit) ++ " more"]
    else []
  if shown.isEmpty then "none" else "; ".intercalate shown

/-- `describe_tasks`. -/
def describeTasks (tasks : List TaskInfo) (limit : ℕ := listedTasks) : String :=
  let live := liveTasks tasks
  listing (unindexedTexts live ++ (indexedTasks live).map TaskInfo.describe)
    limit

end Seedloop
