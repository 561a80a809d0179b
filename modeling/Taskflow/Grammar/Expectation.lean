import Taskflow.Span

/-!
# Syntax errors

A syntax error is a point of the text and the constructs that could have stood there.  Its message
lists them in the order of the grammar.
-/

namespace Taskflow.Grammar

/-- Something that the grammar can ask for. -/
inductive Construct where
  | endOfInput
  | program
  | signatureFile
  | name
  | composition
  | signature
  | functor
  | product
  | type
  | unitType
  | typeName
  | typeArguments
deriving DecidableEq, Repr

namespace Construct

/-- All constructs, in the order in which messages name them. -/
def all : List Construct :=
  [.endOfInput, .program, .signatureFile, .name, .composition, .signature, .functor, .product,
    .type, .unitType, .typeName, .typeArguments]

def describe : Construct → String
  | .endOfInput => "end of input"
  | .program => "program"
  | .signatureFile => "signature_file"
  | .name => "name"
  | .composition => "kw_o"
  | .signature => "type signature"
  | .functor => "functor declaration"
  | .product => "'×'"
  | .type => "type"
  | .unitType => "'()'"
  | .typeName => "name"
  | .typeArguments => "type arguments"

end Construct

/-- `a`, `a or b`, `a, b, or c`. -/
def alternatives : List String → String
  | [] => ""
  | [a] => a
  | [a, b] => a ++ " or " ++ b
  | a :: b :: c :: rest =>
    let all := a :: b :: c :: rest
    ", ".intercalate all.dropLast ++ ", or " ++ all.getLast (by simp [all])

/-- Where reading stopped and what could have come there. -/
structure SyntaxError where
  place : Position
  expected : List Construct
deriving DecidableEq, Repr

namespace SyntaxError

def message (e : SyntaxError) : String :=
  "expected " ++ alternatives ((Construct.all.filter (· ∈ e.expected)).map Construct.describe)

end SyntaxError

end Taskflow.Grammar
