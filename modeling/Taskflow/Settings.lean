import Taskflow.Run.Executor
import Taskflow.Toml

/-!
# Settings

What a user can set once for all runs, how settings are checked, and the document that shows them.
-/

namespace Taskflow

/-- How workflows are run. -/
structure Settings where
  /-- whether the first violation ends a run whose values are checked -/
  strict : Bool
  /-- whether values are checked against the inferred types -/
  typed : Bool
  policy : Policy
  /-- the longest time for a call of a task, in milliseconds -/
  timeout : Option Nat
  /-- how long a simulated task takes, in milliseconds -/
  latency : Nat
  logLevel : String
deriving DecidableEq, Repr

namespace Settings

/-- The settings of a user who sets nothing. -/
def standard : Settings where
  strict := false
  typed := true
  policy := .failFast
  timeout := none
  latency := 0
  logLevel := "info"

/-- The levels of logging, in any case. -/
def logLevels : List String := ["trace", "debug", "info", "warn", "error", "off"]

/-- Why there are no settings to run with. -/
inductive Problem where
  /-- a source cannot be read or does not fit -/
  | unreadable
  | zeroTimeout
  | unknownLogLevel (level : String)
deriving DecidableEq, Repr

/-- What a message says of settings that were read but cannot be used. -/
def Problem.message : Problem → String
  | .unreadable => "failed to load configuration"
  | .zeroTimeout => "invalid configuration: task_timeout_ms must be greater than zero"
  | .unknownLogLevel level =>
    s!"invalid configuration: unknown log_level '{level}' (expected one of "
      ++ ", ".intercalate logLevels ++ ")"

/-- What is wrong with settings.  If two things are, the timeout is named. -/
def problem? (s : Settings) : Option Problem :=
  if s.timeout = some 0 then some .zeroTimeout
  else if s.logLevel.toLower ∈ logLevels then none
  else some (.unknownLogLevel s.logLevel)

/-- A line of a document. -/
def line (key value : String) : String := key ++ " = " ++ value ++ "\n"

/-- The document that shows settings.  There is none if a number has no room in it, which is kept
for numbers of 64 bits with a sign. -/
def toToml? (s : Settings) : Option String :=
  let bool (b : Bool) : String := if b then "true" else "false"
  if !(Digits.fitsSigned (s.timeout.getD 0) && Digits.fitsSigned s.latency) then none
  else some <|
    line "strict" (bool s.strict) ++ line "typed" (bool s.typed)
      ++ line "product_policy" (Toml.quote s.policy.name)
      ++ (match s.timeout with
        | some ms => line "task_timeout_ms" (Nat.repr ms)
        | none => "")
      ++ line "simulated_latency_ms" (Nat.repr s.latency)
      ++ line "log_level" (Toml.quote s.logLevel)

end Settings

end Taskflow
