import Taskflow.Duration
import Taskflow.Program
import Taskflow.Value

/-!
# How runs fail

A task fails by itself; a run fails because of a task, because it was cancelled, or because a value
contradicts the type that was inferred for the place where it appeared.
-/

namespace Taskflow

/-- Why a call of a task yields no value. -/
inductive TaskFailure where
  | failed (message : String)
  | timedOut (limit : Duration)
  /-- the task noticed a cancellation and stopped -/
  | cancelled
deriving DecidableEq, Repr

namespace TaskFailure

def render : TaskFailure → String
  | .failed message => message
  | .timedOut limit => "timed out after " ++ limit.render
  | .cancelled => "cancelled"

end TaskFailure

/-- A literal in a program: where a name is evaluated. -/
structure Site where
  node : NodeId
  name : String
  span : Span
deriving DecidableEq, Repr

/-- A value whose own type contradicts the inferred one. -/
structure Violation where
  site : Site
  expected : Ty
  actual : Ty
deriving DecidableEq, Repr

namespace Violation

def render (v : Violation) : String :=
  s!"runtime type violation at {v.site.span.render}: '{v.site.name}' produced {v.actual.render}"
    ++ ", expected " ++ v.expected.render

end Violation

/-- Why a run yields no value. -/
inductive RunError where
  | task (name : String) (input : Val) (failure : TaskFailure)
  | cancelled
  | violation (v : Violation)
deriving DecidableEq, Repr

namespace RunError

def render : RunError → String
  | .task name input failure => s!"task '{name}' failed on input {input.render}: {failure.render}"
  | .cancelled => "execution cancelled"
  | .violation v => v.render

/-- The name that is to blame, if there is one. -/
def task? : RunError → Option String
  | .task name .. => some name
  | .cancelled => none
  | .violation v => some v.site.name

end RunError

end Taskflow
