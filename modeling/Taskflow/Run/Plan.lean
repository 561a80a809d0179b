import Taskflow.Run.Error

/-!
# Plans

A plan is an expression whose names are resolved: each literal is either a task or a functor
together with the plan of its body.  Functors are resolved in the order of their table, each with
the ones before it, so resolving follows the structure of the program and always ends.
-/

namespace Taskflow

/-- An expression with its names resolved. -/
inductive Plan where
  | task (site : Site)
  /-- a functor name and what it stands for -/
  | named (site : Site) (body : Plan)
  /-- `inner` first, then `outer` on its result -/
  | seq (outer inner : Plan)
  /-- both on the same input -/
  | par (left right : Plan)
deriving DecidableEq, Repr

namespace Plan

/-- How many calls of tasks a plan makes when nothing fails. -/
def leaves : Plan → Nat
  | .task _ => 1
  | .named _ body => body.leaves
  | .seq outer inner => outer.leaves + inner.leaves
  | .par left right => left.leaves + right.leaves

/-- The plan of a node, given the plans that functor names stand for. -/
def ofNode (functors : Table Plan) : Node → Plan
  | .literal id name span =>
    match functors.lookup name with
    | some body => .named ⟨id, name, span⟩ body
    | none => .task ⟨id, name, span⟩
  | .composition _ outer inner _ => .seq (ofNode functors outer) (ofNode functors inner)
  | .product _ left right _ => .par (ofNode functors left) (ofNode functors right)
  | .functor _ _ body _ => ofNode functors body

/-- The plans of functors that are declared after `known`. -/
def ofFunctors (known : Table Plan) : Table Node → Table Plan
  | [] => known
  | (name, .functor _ _ body _) :: rest => ofFunctors (known ++ [(name, ofNode known body)]) rest
  | _ :: rest => ofFunctors known rest

end Plan

namespace Program

/-- What the functor names of a program stand for. -/
def functorPlans (p : Program) : Table Plan := Plan.ofFunctors [] p.functors

/-- The plan of a program's root. -/
def plan (p : Program) : Plan := .ofNode p.functorPlans p.root

end Program

end Taskflow
