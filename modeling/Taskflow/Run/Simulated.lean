import Taskflow.Environment
import Taskflow.Run.Executor

/-!
# Simulated tasks

A workflow can be tried before any of its tasks exists: the simulated executor answers each call
with a placeholder in the shape of the type that the task declares to yield.
-/

namespace Taskflow

namespace Val

/-- A placeholder of a type, made by `task` from `input`.  What a task yields for a variable can
only be its input. -/
def placeholder (task : String) (input : Val) : Ty → Val
  | .unit => .unit
  | .mono name => .data (some name) (.obj [("input", input.toJson), ("task", .str task)])
  | .prod left right => .pair (placeholder task input left) (placeholder task input right)
  | .var _ => input
  | .fn _ _ => .data none (.obj [("task", .str task)])

end Val

namespace Executor

/-- The executor that knows tasks by their declared types; every call takes `latency`
milliseconds. -/
def simulated (env : Environment) (latency : Nat) : Executor Unit where
  respond task input _ :=
    match env.get? task with
    | none => (.now (.error (.failed s!"no signature for task '{task}'")), ())
    | some ty =>
      (⟨latency, false, false, .ok (Val.placeholder task input ty.arrow.2), false⟩, ())

end Executor

end Taskflow
