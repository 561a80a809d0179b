import Taskflow.Command.Arguments
import Taskflow.Command.Variables
import Taskflow.Json.Read
import Taskflow.Run.Simulated
import Taskflow.Settings.Layer
import Taskflow.Wire.Report
import Taskflow.Wire.Value
import Taskflow.Workflow

/-!
# The commands

A command reads the files that it needs, in the order in which it needs them, and says what it
prints and with which code it ends.  Tasks are simulated.
-/

namespace Taskflow.Command

/-- Why a command fails. -/
inductive Failure where
  | file (path : String) (e : FileError)
  /-- a file of signatures is malformed -/
  | signatures (path : String) (e : ParseError)
  | input
  | settings (problem : Settings.Problem)
  /-- settings that no document can hold -/
  | unprintableSettings
  | workflow (e : WorkflowError)

namespace Failure

/-- What a command says of its failure: what failed, and then each cause. -/
def render : Failure → String
  | .file path e => s!"failed to read {path}: I/O error: {e.message}: {e.message}"
  | .signatures path e => s!"in signature file {path}: parse error: {e.render}: {e.render}"
  | .input => "--input is not valid JSON"
  | .settings problem => problem.message
  | .unprintableSettings => "failed to render configuration"
  | .workflow (.parse e) => s!"parse error: {e.render}: {e.render}"
  | .workflow e => e.render

def exitCode : Failure → Nat
  | .signatures .. => 2
  | .workflow e => e.exitCode
  | _ => 1

end Failure

/-- What a command leaves: its code and what it prints. -/
structure Printout where
  code : Nat
  output : String
  messages : String
deriving DecidableEq, Repr

namespace Printout

/-- Each text on a line of its own. -/
def lines (texts : List String) : String := String.join (texts.map (· ++ "\n"))

/-- The end of a command that fails after it has printed something. -/
def failed (output messages : String) (f : Failure) : Printout :=
  ⟨f.exitCode, output, messages ++ "Error: " ++ f.render ++ "\n"⟩

end Printout

variable {m : Type → Type} [Monad m]

/-- Read a file. -/
def readFile (files : Files m) (path : String) : ExceptT Failure m String := do
  match ← files.readText path with
  | .ok text => pure text
  | .error e => throw (.file path e)

/-- The environment that a file of signatures makes, if there is one. -/
def readEnvironment (files : Files m) : Option String → ExceptT Failure m Environment
  | none => pure .empty
  | some path => do
    match Environment.parse (← readFile files path) with
    | .ok env => pure env
    | .error e => throw (.signatures path e)

/-- Settings with what the arguments of a run say on top. -/
def override (s : Settings) (strict waitAll untyped : Bool) (timeout latency : Option Nat) :
    Settings where
  strict := s.strict || strict
  typed := s.typed && !untyped
  policy := if waitAll then .waitAll else s.policy
  timeout := timeout.or s.timeout
  latency := latency.getD s.latency
  logLevel := s.logLevel

/-- Show a type with the file that it is the type of. -/
def typeLine (file : String) (t : Ty) : String := s!"✓ {file} :: {t.render}\n"

/-- Check a program. -/
def check (files : Files m) (file : String) (environment : Option String) (json : Bool) :
    ExceptT Failure m Printout := do
  let source ← readFile files file
  let base ← readEnvironment files environment
  match Workflow.check source base with
  | .error e => throw (.workflow e)
  | .ok (_, report) =>
    let output :=
      if json then report.encode.pretty ++ "\n"
      else
        match report.success, report.programType with
        | true, some t => typeLine file t
        | _, _ => ""
    let messages :=
      if json then ""
      else if report.success then Printout.lines (report.warnings.map Warning.render)
      else report.render ++ "\n"
    if report.success then pure ⟨0, output, messages⟩
    else pure (.failed output messages (.workflow (.type report)))

/-- Run a program with simulated tasks. -/
def run (files : Files m) (settings : Settings) (file : String)
    (input environment : Option String) : ExceptT Failure m Printout := do
  let source ← readFile files file
  let base ← readEnvironment files environment
  let input ← match input with
    | none => pure .unit
    | some text =>
      match Json.parse? text with
      | some j => pure (Val.ofJson j)
      | none => throw .input
  match Program.parse source with
  | .error e => throw (.workflow (.parse e))
  | .ok p =>
    let executor := Executor.simulated (p.environment base) settings.latency
    match (Workflow.run source base executor () input settings.runOptions none).result with
    | .error e => throw (.workflow e)
    | .ok y =>
      pure ⟨0, y.value.encode.pretty ++ "\n",
        Printout.lines (y.report.warnings.map Warning.render
          ++ y.violations.map fun v ↦ "warning: " ++ v.render)⟩

/-- Print a program. -/
def ast (files : Files m) (file : String) : ExceptT Failure m Printout := do
  match Program.parse (← readFile files file) with
  | .error e => throw (.workflow (.parse e))
  | .ok p => pure ⟨0, p.encode.pretty ++ "\n", ""⟩

/-- Do what the arguments ask for. -/
def perform (files : Files m) (vars : Table String) (args : Arguments) :
    ExceptT Failure m Printout := do
  let vars := match ← files.read ".env" with
    | .ok bytes => addVariables vars (Files.textLines bytes)
    | .error _ => vars
  match ← ExceptT.lift (Settings.loadFrom files vars args.config) with
  | .error problem => throw (.settings problem)
  | .ok settings =>
    match args.action with
    | .run file input environment strict waitAll untyped timeout latency =>
      let settings := override settings strict waitAll untyped timeout latency
      match settings.problem? with
      | some problem => throw (.settings problem)
      | none => run files settings file input environment
    | .check file environment json => check files file environment json
    | .ast file => ast files file
    | .config =>
      match settings.toToml? with
      | some text => pure ⟨0, text, ""⟩
      | none => throw .unprintableSettings

/-- Carry out a command. -/
def execute (files : Files m) (vars : Table String) (args : Arguments) : m Printout := do
  match ← (perform files vars args).run with
  | .ok printout => pure printout
  | .error f => pure (.failed "" "" f)

end Taskflow.Command
