import Taskflow.Command

/-!
# The program

Reads files and variables for a command, prints what it prints and ends with its code.
-/

namespace Taskflow

/-- The files of the machine. -/
def machineFiles : Files IO where
  read path := do
    try
      return .ok (← IO.FS.readBinFile path)
    catch
      | .noFileOrDirectory .. => return .error .missing
      -- the code of a directory that should be a file
      | .inappropriateType _ 21 _ => return .error .directory
      | .inappropriateType .. => return .error .notDirectory
      | e => return .error (.other (toString e))

/-- The variables that settings can come from. -/
def settingVariables : List String :=
  ["STRICT", "TYPED", "PRODUCT_POLICY", "TASK_TIMEOUT_MS", "SIMULATED_LATENCY_MS", "LOG_LEVEL"].map
    fun name ↦ Settings.variableStart.toUpper ++ name

/-- What is said of arguments that are no command. -/
def usage : String := "usage: run|check|ast FILE [OPTIONS], or config\n"

end Taskflow

open Taskflow

def main (args : List String) : IO UInt32 := do
  match Command.Arguments.read args with
  | .error .help =>
    IO.print usage
    return 0
  | .error _ =>
    IO.eprint usage
    return 2
  | .ok args =>
    let mut vars : Table String := []
    for name in settingVariables do
      if let some value ← IO.getEnv name then
        vars := vars ++ [(name, value)]
    let printout ← Command.execute machineFiles vars args
    IO.eprint printout.messages
    IO.print printout.output
    return UInt32.ofNat printout.code
