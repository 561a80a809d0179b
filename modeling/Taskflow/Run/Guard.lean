import Taskflow.Run.Executor
import Taskflow.Typing.Report

/-!
# Watching values

Two observers.  A *guard* compares the value of every literal with the type that was inferred for
its node and keeps the violations that it finds; a strict one also refuses them.  A *recorder* keeps
every value and refuses those of one name.
-/

namespace Taskflow

/-- The types to hold values against. -/
structure Guard where
  nodeTypes : SortedMap NodeId Ty
  /-- whether a violation ends the run -/
  strict : Bool

namespace Guard

/-- How a value contradicts what its node promises.  A node without a type promises nothing, and a
value without a tag claims nothing. -/
def violation? (g : Guard) (site : Site) (v : Val) : Option Violation := do
  let promised ← g.nodeTypes.get? site.node
  let actual ← v.runtimeType
  let expected := promised.arrow.2
  if expected.compatible actual then none else some ⟨site, expected, actual⟩

/-- The observer that keeps violations in the order in which they appear. -/
def observer (g : Guard) : Observer (List Violation) where
  observe site v found :=
    match g.violation? site v with
    | none => (none, found)
    | some violation =>
      (if g.strict then some (.violation violation) else none, found ++ [violation])

end Guard

/-- A value that a literal yielded. -/
structure Sighting where
  site : Site
  output : Val
deriving DecidableEq, Repr

/-- The observer that keeps every value, and refuses the values of the name `refused`. -/
def Observer.recorder (refused : Option String) : Observer (List Sighting) where
  observe site v seen :=
    let refusal : RunError := .task site.name v (.failed "aborted by hook")
    (if some site.name = refused then some refusal else none, seen ++ [⟨site, v⟩])

end Taskflow
