import Taskflow.Typing.Infer
import Taskflow.Typing.Lint

/-!
# Checking programs

A program is checked against a base environment, which its own signatures override.  It succeeds if
every functor and the root have a type; warnings never keep it from succeeding.
-/

namespace Taskflow

/-- Check a program with a choice of lint rules. -/
def Program.checkWith (rules : List LintRule) (p : Program) (base : Environment) : Report :=
  let env := p.environment base
  let (rootType, found) := p.infer env
  let success := found.errors.isEmpty && rootType.isSome
  { success
    errors := found.errors.mergeSort TypeError.notAfter
    warnings := rules.flatMap fun rule ↦ rule.check p env
    programType := if success then rootType else none
    environment := if success then some (env.merge found.functorTypes) else none
    nodeTypes := found.nodeTypes }

/-- Check a program. -/
def Program.check (p : Program) (base : Environment) : Report := p.checkWith LintRule.all base

end Taskflow
