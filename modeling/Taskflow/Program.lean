import Taskflow.Environment
import Taskflow.Span
import Taskflow.Table

/-!
# Programs

A program declares signatures of tasks, names expressions as *functors* and has one root expression.
Every node of an expression carries a span and an id; types that are inferred and violations that
are observed refer to nodes by id.
-/

namespace Taskflow

/-- The identity of a node within one program.  Ids are counted up without a bound here; where they
are kept in 32 bits, programs of 2^32 nodes and more are out of scope. -/
abbrev NodeId := Nat

namespace NodeId

def render (n : NodeId) : String := s!"#{Nat.repr n}"

end NodeId

/-- An expression. -/
inductive Node where
  /-- the task, or the functor, of that name -/
  | literal (id : NodeId) (name : String) (span : Span)
  /-- `outer ∘ inner`: the result of `inner` is the input of `outer` -/
  | composition (id : NodeId) (outer inner : Node) (span : Span)
  /-- `left × right`: both branches on the same input -/
  | product (id : NodeId) (left right : Node) (span : Span)
  /-- the declaration of `name` as a shorthand for `body` -/
  | functor (id : NodeId) (name : String) (body : Node) (span : Span)
deriving DecidableEq, Repr

namespace Node

def id : Node → NodeId
  | .literal i .. | .composition i .. | .product i .. | .functor i .. => i

def span : Node → Span
  | .literal _ _ s | .composition _ _ _ s | .product _ _ _ s | .functor _ _ _ s => s

/-- The names of all literals, in the order in which they are written. -/
def references : Node → List String
  | .literal _ name _ => [name]
  | .composition _ outer inner _ => outer.references ++ inner.references
  | .product _ left right _ => left.references ++ right.references
  | .functor _ _ body _ => body.references

/-- The written form of a node, with parentheses around every operation. -/
def render : Node → String
  | .literal _ name _ => name
  | .composition _ outer inner _ => "(" ++ outer.render ++ " ∘ " ++ inner.render ++ ")"
  | .product _ left right _ => "(" ++ left.render ++ " × " ++ right.render ++ ")"
  | .functor _ name body _ => "functor " ++ name ++ " = " ++ body.render

end Node

/-- The declared type of a task. -/
structure Signature where
  name : String
  ty : Ty
  span : Span
deriving DecidableEq, Repr

namespace Signature

def render (s : Signature) : String := s.name ++ " :: " ++ s.ty.render

end Signature

/-- Everything that one source text declares. -/
structure Program where
  signatures : Table Signature
  functors : Table Node
  root : Node
  span : Span
deriving DecidableEq, Repr

namespace Program

/-- Whether a name refers to an entry of the functor table. -/
def isFunctor (p : Program) (name : String) : Bool := (p.functors.lookup name).isSome

/-- What a functor name stands for. -/
def functorBody (p : Program) (name : String) : Option Node :=
  match p.functors.lookup name with
  | some (.functor _ _ body _) => some body
  | _ => none

/-- The types that the signatures of a program declare. -/
def declared (p : Program) : Environment := .ofList (p.signatures.map fun s ↦ (s.2.name, s.2.ty))

/-- What is known about tasks when `p` is checked against `base`: signatures of the program take
the place of entries of the base. -/
def environment (p : Program) (base : Environment) : Environment := base.merge p.declared

/-- The canonical text of a program: a line for each signature, one for each functor and one for the
root. -/
def render (p : Program) : String :=
  "\n".intercalate <|
    p.signatures.map (·.2.render) ++ p.functors.map (·.2.render) ++ [p.root.render]

end Program

end Taskflow
