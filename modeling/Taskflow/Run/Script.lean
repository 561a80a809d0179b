import Taskflow.Run.Executor
import Taskflow.Table

/-!
# Scripted tasks

A script says for each task how its calls go, one after the other; calls beyond the last step go
like the last one.  It serves to rehearse a workflow under any timing and any failure of its tasks.
-/

namespace Taskflow

/-- How a scripted call ends. -/
inductive Ending where
  /-- with a fixed value, or in failure if the script has none that is well formed -/
  | value (v : Option Val)
  /-- with a value of that tag, which tells the task and its input -/
  | tag (name : String)
  | fail (message : String)
  | timedOut (limit : Duration)
  | cancelled
  /-- with the names of all tasks on the way so far -/
  | trail
  /-- with its input -/
  | echo
deriving DecidableEq, Repr

namespace Ending

/-- The tasks that an input has come through, as far as it tells. -/
def visited : Val → List Json
  | .data _ (.arr items) => items
  | v =>
    match v.toJson with
    | .null => []
    | j => [j]

def result (task : String) (input : Val) : Ending → Except TaskFailure Val
  | .value (some v) => .ok v
  | .value none => .error (.failed "bad value in script")
  | .tag name => .ok (.data (some name) (.obj [("by", .str task), ("input", input.toJson)]))
  | .fail message => .error (.failed message)
  | .timedOut limit => .error (.timedOut limit)
  | .cancelled => .error .cancelled
  | .trail => .ok (.data none (.arr (visited input ++ [.str task])))
  | .echo => .ok input

end Ending

/-- How a scripted call goes. -/
structure Step where
  delay : Nat
  cancelsScope : Bool
  cancelsRun : Bool
  ending : Ending
deriving DecidableEq, Repr

namespace Step

/-- A call that yields its input at once. -/
def echo : Step := ⟨0, false, false, .echo⟩

/-- The same ending at once and without any cancellation. -/
def immediate (s : Step) : Step := ⟨0, false, false, s.ending⟩

def reply (task : String) (input : Val) (s : Step) : Reply :=
  ⟨s.delay, s.cancelsScope, s.cancelsRun, s.ending.result task input, false⟩

end Step

/-- The steps of each task; those under `*` are for tasks that have none of their own. -/
abbrev Script := Table (List Step)

namespace Script

/-- The steps of a task. -/
def steps? (s : Script) (task : String) : Option (List Step) :=
  (s.lookup task).or (s.lookup "*")

/-- The step of the call with the number `n`, counted from zero. -/
def step (steps : List Step) (n : Nat) : Step := steps[min n (steps.length - 1)]?.getD .echo

/-- The script without delays and cancellations. -/
def immediate (s : Script) : Script := s.map fun e ↦ (e.1, e.2.map Step.immediate)

/-- The executor that follows a script; it remembers how often it was called for each task. -/
def executor (s : Script) : Executor (Table Nat) where
  respond task input counts :=
    let n := (counts.lookup task).getD 0
    let reply := match s.steps? task with
      | none => .now (.error (.failed s!"unknown task {task}"))
      | some steps => (step steps n).reply task input
    (reply, Table.put task (n + 1) counts)

end Script

end Taskflow
