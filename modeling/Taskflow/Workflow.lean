import Taskflow.Grammar.Parse
import Taskflow.Run.Guard
import Taskflow.Run.Machine
import Taskflow.Settings
import Taskflow.Typing.Check

/-!
# Workflows from text to value

A text is parsed, checked and run, in this order, and each step needs the one before it: no task is
called unless the program is well typed.
-/

namespace Taskflow

/-- How a workflow is run. -/
structure RunOptions where
  /-- whether values are checked against the inferred types -/
  typed : Bool
  /-- whether the first violation ends the run -/
  strict : Bool
  policy : Policy
  /-- the longest time for a call of a task, in milliseconds -/
  timeout : Option Nat
deriving DecidableEq, Repr

/-- The options that settings make. -/
def Settings.runOptions (s : Settings) : RunOptions := ⟨s.typed, s.strict, s.policy, s.timeout⟩

/-- Why a workflow yields no value. -/
inductive WorkflowError where
  | parse (e : ParseError)
  /-- the program is ill-typed, as the report says -/
  | type (report : Report)
  | execution (e : RunError)
  | violation (v : Violation)

namespace WorkflowError

/-- The error of a run that fails.  A violation is an error of its own kind. -/
def ofRun : RunError → WorkflowError
  | .violation v => .violation v
  | e => .execution e

def render : WorkflowError → String
  | .parse e => "parse error: " ++ e.render
  | .type report => s!"type check failed with {Nat.repr report.errors.length} error(s)"
  | .execution e => "execution failed: " ++ e.render
  | .violation v => v.render

/-- The code that tells kinds of errors apart. -/
def exitCode : WorkflowError → Nat
  | .parse _ => 2
  | .type _ => 3
  | .execution _ => 4
  | .violation _ => 5

end WorkflowError

/-- What a workflow yields. -/
structure Yield where
  value : Val
  report : Report
  /-- violations that did not end the run -/
  violations : List Violation

/-- What is left of a run: how it ended, and what it changed. -/
structure Trace (σ : Type) where
  result : Except WorkflowError Yield
  executor : σ
  clock : Nat
  calls : List CallRecord
  /-- whether the caller's scope is cancelled -/
  cancelled : Bool

namespace Workflow

/-- Parse and check a text.  Type errors are in the report. -/
def check (source : String) (base : Environment) : Except WorkflowError (Program × Report) :=
  match Program.parse source with
  | .error e => .error (.parse e)
  | .ok p => .ok (p, p.check base)

/-- Run a program that has been checked. -/
def runChecked {σ : Type} (p : Program) (report : Report) (executor : Executor σ) (s : σ)
    (input : Val) (options : RunOptions) (cancelAfter : Option Nat) : Trace σ :=
  let executor := match options.timeout with
    | some limit => executor.within limit
    | none => executor
  let trace {ω : Type} (violations : ω → List Violation)
      (r : Except RunError Val × World σ ω) : Trace σ :=
    let result := match r.1 with
      | .ok v => .ok ⟨v, report, violations r.2.observer⟩
      | .error e => .error (.ofRun e)
    ⟨result, r.2.executor, r.2.clock, r.2.calls, r.2.cancelled⟩
  if options.typed then
    let guard : Guard := ⟨report.nodeTypes, options.strict⟩
    trace id <|
      Machine.run ⟨executor, guard.observer, options.policy⟩ p.plan input s [] 0 cancelAfter
  else
    trace (fun _ ↦ []) <|
      Machine.run ⟨executor, .blind, options.policy⟩ p.plan input s () 0 cancelAfter

/-- Parse, check and run a text.  The executor begins with the memory `s`; the caller cancels the
run after some milliseconds, or never. -/
def run {σ : Type} (source : String) (base : Environment) (executor : Executor σ) (s : σ)
    (input : Val) (options : RunOptions) (cancelAfter : Option Nat) : Trace σ :=
  let refused (e : WorkflowError) : Trace σ := ⟨.error e, s, 0, [], cancelAfter == some 0⟩
  match check source base with
  | .error e => refused e
  | .ok (p, report) =>
    if report.success then runChecked p report executor s input options cancelAfter
    else refused (.type report)

end Workflow

end Taskflow
