import Taskflow.Grammar.Build
import Taskflow.Grammar.Reader

/-!
# Parsing

Texts are parsed as whole programs, as lists of signatures, as single expressions and as types.  A
text that the grammar refuses is a syntax error; one that it accepts can still fail to make a
program.
-/

namespace Taskflow

open Grammar

/-- Why a text is not what it was parsed as. -/
inductive ParseError where
  | grammar (e : SyntaxError)
  | build (e : BuildError)
deriving DecidableEq, Repr

namespace ParseError

def message : ParseError → String
  | .grammar e => e.message
  | .build e => e.message

/-- Where the fault lies; a syntax error lies at a point. -/
def span : ParseError → Span
  | .grammar e => .point e.place
  | .build e => e.span

def render : ParseError → String
  | .grammar e => s!"syntax error at {e.place.render}: {e.message}"
  | .build e => s!"{e.message} at {e.span.render}"

/-- The line of the fault, counted from one. -/
def line (e : ParseError) : Nat := e.span.start.line + 1

/-- The column of the fault, counted from one. -/
def column (e : ParseError) : Nat := e.span.start.column + 1

end ParseError

/-- Parse a whole program. -/
def Program.parse (text : String) : Except ParseError Program := do
  let items ← (read .program text).mapError .grammar
  (build items (spanOf text)).mapError .build

/-- Parse a list of signatures. -/
def Signature.parseAll (text : String) : Except ParseError (List Signature) := do
  let items ← (read .signatures text).mapError .grammar
  (buildSignatures items).mapError .build

/-- Parse an expression on its own; every name in it is a task. -/
def Node.parse (text : String) : Except ParseError Node := do
  match ← (read .expression text).mapError .grammar with
  | .expression body _ :: _ => .ok (body.number 0).1
  | _ => .error (.build (.noExpression (spanOf text)))

/-- What a type is read behind. -/
def Ty.lead : String := "_ :: "

/-- Parse a type: the one that the last signature of the text declares when it is read behind
`Ty.lead`.  Places in errors count the lead. -/
def Ty.parse (text : String) : Except ParseError Ty := do
  let text := Ty.lead ++ text
  match (← Signature.parseAll text).getLast? with
  | some s => .ok s.ty
  | none => .error (.build (.noExpression (spanOf text)))

/-- Parse a list of signatures as an environment. -/
def Environment.parse (text : String) : Except ParseError Environment := do
  let signatures ← Signature.parseAll text
  .ok (.ofList (signatures.map fun s ↦ (s.name, s.ty)))

end Taskflow
