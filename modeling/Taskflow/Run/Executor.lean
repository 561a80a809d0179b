import Taskflow.Run.Error

/-!
# Executors and observers

Tasks are done by an *executor*, which sees one call after the other and settles at once how each
will go: how long it takes, what it cancels when it is over, and how it ends.  Whether a call really
takes its course is not its business; the run may drop it before.

An *observer* is told every value that a literal yields and can refuse it.
-/

namespace Taskflow

/-- How a call will go if it is left to finish. -/
structure Reply where
  /-- in milliseconds -/
  delay : Nat
  /-- whether it cancels the innermost product around it when it is over -/
  cancelsScope : Bool
  /-- whether it cancels the whole run then -/
  cancelsRun : Bool
  result : Except TaskFailure Val
  /-- whether the task itself is cut short at that moment, so that it never ends by itself -/
  cutShort : Bool

namespace Reply

/-- An answer without delay that cancels nothing. -/
def now (result : Except TaskFailure Val) : Reply := ⟨0, false, false, result, false⟩

end Reply

/-- What does the tasks of a run; `σ` is what it remembers between calls. -/
structure Executor (σ : Type) where
  respond : String → Val → σ → Reply × σ

namespace Executor

variable {σ : Type}

/-- Cut every call short that takes longer than `limit` milliseconds. -/
def within (limit : Nat) (e : Executor σ) : Executor σ where
  respond task input s :=
    let (reply, s) := e.respond task input s
    if reply.delay ≤ limit then (reply, s)
    else (⟨limit, false, false, .error (.timedOut (.ofMillis limit)), true⟩, s)

end Executor

/-- What watches the values of a run; `ω` is what it remembers.  A run whose value it refuses fails
with the error that it gives. -/
structure Observer (ω : Type) where
  observe : Site → Val → ω → Option RunError × ω

namespace Observer

/-- The observer that sees nothing. -/
def blind : Observer Unit where
  observe _ _ _ := (none, ())

end Observer

/-- What a product does when one branch fails. -/
inductive Policy where
  /-- drop the other branch and fail at once -/
  | failFast
  /-- let the other branch finish; of two errors the left one counts -/
  | waitAll
deriving DecidableEq, Repr

namespace Policy

def name : Policy → String
  | .failFast => "fail_fast"
  | .waitAll => "wait_all"

end Policy

end Taskflow
