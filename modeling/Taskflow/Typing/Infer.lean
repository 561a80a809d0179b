import Taskflow.Ty.Substitution
import Taskflow.Typing.Report

/-!
# Type inference

Types are inferred from the leaves up.  A task has the type that its signature declares, read as a
function; a functor name has the type of the functor's body; a composition joins its operands where
the codomain of the inner one meets the domain of the outer one, and a product its branches where
their domains meet.  Where two types meet, the variables of each take what they meet on the other
side.

A node without a type is reported only if everything that it depends on has one, so one fault gives
one error.
-/

namespace Taskflow

namespace Ty

/-- The type of `outer ∘ inner`, from the types of both; none if they do not fit. -/
def compose? (outer inner : Ty) : Option Ty :=
  let (a, b) := inner.arrow
  let (b', c) := outer.arrow
  if b.compatible b' then some (.fn (a.apply (b.bind b' [])) (c.apply (b'.bind b []))) else none

/-- The type of `left × right`, from the types of both; none if they do not accept the same
input.  Where the left branch accepts anything, the right one decides what the product accepts. -/
def product? (left right : Ty) : Option Ty :=
  let (a, b) := left.arrow
  let (a', c) := right.arrow
  if a.compatible a' then
    some (.fn (if a.isVar then a' else a) (.prod (b.apply (a.bind a' [])) (c.apply (a'.bind a []))))
  else none

end Ty

/-- What inference has found so far. -/
structure Findings where
  functorTypes : SortedMap String Ty
  nodeTypes : SortedMap NodeId Ty
  /-- in the order in which they were found -/
  errors : List TypeError
deriving DecidableEq

namespace Findings

def none : Findings := ⟨.empty, .empty, []⟩

def report (f : Findings) (e : TypeError) : Findings := { f with errors := f.errors ++ [e] }

/-- Record the type of a node, if it has one. -/
def record (f : Findings) (id : NodeId) : Option Ty → Option Ty × Findings
  | .none => (.none, f)
  | some t => (some t, { f with nodeTypes := f.nodeTypes.insert id t })

end Findings

variable (isFunctor : String → Bool) (env : Environment)

/-- The type of a node and everything found on the way to it. -/
def infer (f : Findings) : Node → Option Ty × Findings
  | node@(.literal id name _) =>
    if isFunctor name then f.record id (f.functorTypes.get? name)
    else match env.get? name with
      | some t => f.record id (some t.asFn)
      | none => (none, f.report (.unbound node name))
  | node@(.composition id outer inner _) =>
    let (innerTy, f) := infer f inner
    let (outerTy, f) := infer f outer
    match outerTy, innerTy with
    | some o, some i =>
      match o.compose? i with
      | some t => f.record id (some t)
      | none => (none, f.report (.composition node outer inner o.arrow.1 i.arrow.2))
    | _, _ => (none, f)
  | node@(.product id left right _) =>
    let (leftTy, f) := infer f left
    let (rightTy, f) := infer f right
    match leftTy, rightTy with
    | some l, some r =>
      match l.product? r with
      | some t => f.record id (some t)
      | none => (none, f.report (.product node left right l.arrow.1 r.arrow.1))
    | _, _ => (none, f)
  | .functor id name body _ =>
    match infer f body with
    | (some t, f) => { f with functorTypes := f.functorTypes.insert name t }.record id (some t)
    | (none, f) => (none, f)

/-- Infer the types of nodes in turn. -/
def inferAll (f : Findings) (nodes : List Node) : Findings :=
  nodes.foldl (fun f n ↦ (infer isFunctor env f n).2) f

/-- The type of a program's root, and everything found in its functors and its root. -/
def Program.infer (p : Program) (env : Environment) : Option Ty × Findings :=
  Taskflow.infer p.isFunctor env (inferAll p.isFunctor env .none (p.functors.map (·.2))) p.root

end Taskflow
