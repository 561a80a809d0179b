/-!
# Types of the workflow language

A type is a name, a variable, a function, a product or the unit type.  Two types are *compatible*
when they agree up to variables, each occurrence of which stands for anything; nothing is ever
unified.
-/

namespace Taskflow

/-- The type of a task, of a workflow or of a value. -/
inductive Ty where
  /-- a concrete type, known by its name alone, such as `Data` or `List[Data]` -/
  | mono (name : String)
  /-- a placeholder for any type -/
  | var (name : String)
  | fn (domain codomain : Ty)
  | prod (left right : Ty)
  | unit
deriving DecidableEq, Repr, Inhabited

namespace Ty

def isVar : Ty → Bool
  | .var _ => true
  | _ => false

/-- What a type accepts and what it yields.  A type that is no function is a constant, which accepts
the unit. -/
def arrow : Ty → Ty × Ty
  | .fn a b => (a, b)
  | t => (.unit, t)

/-- The function type with the domain and codomain of `t`. -/
def asFn (t : Ty) : Ty := .fn t.arrow.1 t.arrow.2

@[simp] theorem arrow_fn (a b : Ty) : (fn a b).arrow = (a, b) := rfl

@[simp] theorem asFn_fn (a b : Ty) : (fn a b).asFn = fn a b := rfl

/-- Agreement up to variables. -/
def compatible : Ty → Ty → Bool
  | .var _, _ => true
  | _, .var _ => true
  | .unit, .unit => true
  | .mono a, .mono b => a == b
  | .fn a b, .fn a' b' => a.compatible a' && b.compatible b'
  | .prod a b, .prod a' b' => a.compatible a' && b.compatible b'
  | _, _ => false

/-- Add the variables of a type that `seen` lacks, in order of first appearance. -/
def collectVars (seen : List String) : Ty → List String
  | .var a => if a ∈ seen then seen else seen ++ [a]
  | .fn a b => b.collectVars (a.collectVars seen)
  | .prod a b => b.collectVars (a.collectVars seen)
  | .mono _ => seen
  | .unit => seen

/-- The variables of a type, each once, in order of first appearance. -/
def vars (t : Ty) : List String := t.collectVars []

def inParens (s : String) : String := "(" ++ s ++ ")"

/-- The written form of a type.  A product binds tighter than an arrow, arrows associate to the
right and products to the left; a product below an arrow is written in parentheses on either
side. -/
def render : Ty → String
  | .mono a => a
  | .var a => a
  | .unit => "()"
  | .fn a b =>
    let domain := match a with
      | .fn .. | .prod .. => inParens a.render
      | _ => a.render
    let codomain := match b with
      | .prod .. => inParens b.render
      | _ => b.render
    domain ++ " -> " ++ codomain
  | .prod a b =>
    let left := match a with
      | .fn .. => inParens a.render
      | _ => a.render
    let right := match b with
      | .fn .. | .prod .. => inParens b.render
      | _ => b.render
    left ++ " × " ++ right

end Ty

end Taskflow
