import Taskflow.Program

/-!
# Reports

What checking a program finds: type errors, warnings, and the types of all nodes that have one.
-/

namespace Taskflow

/-- What makes a node ill-typed. -/
inductive TypeErrorKind where
  | unboundTask
  | compositionMismatch
  | productMismatch
deriving DecidableEq, Repr

namespace TypeErrorKind

def name : TypeErrorKind → String
  | .unboundTask => "unbound-task"
  | .compositionMismatch => "composition-mismatch"
  | .productMismatch => "product-mismatch"

end TypeErrorKind

/-- A node that has no type although everything below it has one. -/
structure TypeError where
  kind : TypeErrorKind
  node : NodeId
  /-- the written form of the node -/
  subject : String
  span : Span
  expected : Option Ty
  actual : Option Ty
  message : String
deriving DecidableEq, Repr

namespace TypeError

def render (e : TypeError) : String :=
  s!"type error at {e.span.render}: {e.message} [{e.kind.name}]"

/-- A literal that names neither a functor nor a task with a signature. -/
def unbound (node : Node) (name : String) : TypeError where
  kind := .unboundTask
  node := node.id
  subject := node.render
  span := node.span
  expected := none
  actual := none
  message := s!"unbound task '{name}': no type signature declared"

/-- A composition whose inner operand yields `actual` where the outer one accepts `expected`. -/
def composition (node outer inner : Node) (expected actual : Ty) : TypeError where
  kind := .compositionMismatch
  node := node.id
  subject := node.render
  span := node.span
  expected := some expected
  actual := some actual
  message :=
    let (o, i) := (outer.render, inner.render)
    s!"cannot compose {o} ∘ {i}: '{i}' produces {actual.render} but '{o}' expects {expected.render}"

/-- A product whose branches accept `expected` and `actual`. -/
def product (node left right : Node) (expected actual : Ty) : TypeError where
  kind := .productMismatch
  node := node.id
  subject := node.render
  span := node.span
  expected := some expected
  actual := some actual
  message :=
    let (l, r) := (left.render, right.render)
    s!"cannot form product {l} × {r}: '{l}' accepts {expected.render}"
      ++ s!" but '{r}' accepts {actual.render}"

/-- Source order. -/
def notAfter (a b : TypeError) : Bool := a.span.notAfter b.span

end TypeError

/-- A finding that does not keep a program from running. -/
structure Warning where
  span : Span
  message : String
  /-- the id of the rule that found it -/
  rule : String
deriving DecidableEq, Repr

namespace Warning

def render (w : Warning) : String := s!"warning at {w.span.render}: {w.message} [{w.rule}]"

end Warning

/-- The result of checking a program. -/
structure Report where
  success : Bool
  /-- in source order -/
  errors : List TypeError
  warnings : List Warning
  /-- the type of the root; only on success -/
  programType : Option Ty
  /-- the environment that the program was checked in and the types of its functors; only on
  success -/
  environment : Option Environment
  /-- the type of every node that has one -/
  nodeTypes : SortedMap NodeId Ty
deriving DecidableEq

namespace Report

/-- A line for each error, then one for each warning. -/
def render (r : Report) : String :=
  "\n".intercalate (r.errors.map TypeError.render ++ r.warnings.map Warning.render)

end Report

end Taskflow
