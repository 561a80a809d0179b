import Taskflow.Span
import Taskflow.Ty

/-!
# Parse trees

What the grammar says about a text, before names are resolved and nodes are numbered: a list of
items, each a signature, a functor declaration or an expression.
-/

namespace Taskflow.Grammar

/-- A name and where it stands. -/
structure Word where
  text : String
  span : Span
deriving DecidableEq, Repr

/-- The tree of an expression; parentheses leave no trace in it. -/
inductive Expr where
  | name (word : Word)
  | compose (outer inner : Expr)
  | product (left right : Expr)
deriving DecidableEq, Repr

namespace Expr

/-- An operation reaches from the start of its first operand to the end of its second. -/
def span : Expr → Span
  | .name w => w.span
  | .compose outer inner => outer.span.merge inner.span
  | .product left right => left.span.merge right.span

/-- The names of an expression, in the order in which they are written. -/
def words : Expr → List Word
  | .name w => [w]
  | .compose outer inner => outer.words ++ inner.words
  | .product left right => left.words ++ right.words

end Expr

/-- A top-level part of a program.  The span of an item may reach to the next token. -/
inductive Item where
  | signature (name : Word) (ty : Ty) (span : Span)
  | functor (name : Word) (body : Expr) (span : Span)
  | expression (body : Expr) (span : Span)
deriving DecidableEq, Repr

namespace Item

def span : Item → Span
  | .signature _ _ s | .functor _ _ s | .expression _ s => s

end Item

end Taskflow.Grammar
