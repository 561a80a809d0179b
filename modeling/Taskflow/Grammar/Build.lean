import Taskflow.Grammar.Tree
import Taskflow.Program

/-!
# From items to programs

A list of items is a program if functor names differ from each other, signature names differ from
each other, exactly one item is an expression, and no functor is named in its own declaration or
before it.  Nodes are numbered in source order, every node after its children, with one numbering
for the whole text.
-/

namespace Taskflow.Grammar

/-- Why a list of items is no program. -/
inductive BuildError where
  | duplicateFunctor (name : Word) (first : Span)
  | duplicateSignature (name : String) (again first : Span)
  /-- a functor is named inside its own declaration -/
  | selfReference (name : Word)
  | usedBeforeDeclaration (name : Word) (declared : Span)
  | secondExpression (again first : Span)
  | noExpression (text : Span)
deriving DecidableEq, Repr

namespace BuildError

def message : BuildError → String
  | .duplicateFunctor name first =>
    s!"Duplicate functor name '{name.text}' (first declared at {first.render})"
  | .duplicateSignature name _ first =>
    s!"Duplicate type signature for '{name}' (first declared at {first.render})"
  | .selfReference name => s!"Functor '{name.text}' cannot reference itself"
  | .usedBeforeDeclaration name declared =>
    s!"Functor '{name.text}' is used before its declaration at {declared.render}"
  | .secondExpression _ first =>
    s!"Program has more than one top-level expression (first at {first.render})"
  | .noExpression _ => "Program has no top-level expression"

def span : BuildError → Span
  | .duplicateFunctor name _ => name.span
  | .duplicateSignature _ again _ => again
  | .selfReference name => name.span
  | .usedBeforeDeclaration name _ => name.span
  | .secondExpression again _ => again
  | .noExpression text => text

end BuildError

namespace Expr

/-- The nodes of an expression, numbered from `next` on, and the first number left. -/
def number (next : NodeId) : Expr → Node × NodeId
  | .name w => (.literal next w.text w.span, next + 1)
  | .compose outer inner =>
    let (o, n) := outer.number next
    let (i, m) := inner.number n
    (.composition m o i (outer.span.merge inner.span), m + 1)
  | .product left right =>
    let (l, n) := left.number next
    let (r, m) := right.number n
    (.product m l r (left.span.merge right.span), m + 1)

end Expr

/-- Where a functor is declared: the position of its item and the span of its name. -/
structure Declaration where
  item : Nat
  span : Span
deriving DecidableEq, Repr

/-- The functors that items declare, the first of which has the given position. -/
def declarations : Nat → List Item → Table Declaration
  | _, [] => []
  | n, .functor name _ _ :: rest => (name.text, ⟨n, name.span⟩) :: declarations (n + 1) rest
  | n, _ :: rest => declarations (n + 1) rest

/-- Refuse the second of two functors with one name. -/
def distinctFunctors (seen : Table Span) : List Item → Except BuildError Unit
  | [] => .ok ()
  | .functor name _ _ :: rest =>
    match seen.lookup name.text with
    | some first => .error (.duplicateFunctor name first)
    | none => distinctFunctors (seen ++ [(name.text, name.span)]) rest
  | _ :: rest => distinctFunctors seen rest

/-- Refuse the first name in an item that refers to a functor of that item or of a later one. -/
def inScope (declared : Table Declaration) (item : Nat) : List Word → Except BuildError Unit
  | [] => .ok ()
  | w :: rest =>
    match declared.lookup w.text with
    | none => inScope declared item rest
    | some d =>
      if d.item = item then .error (.selfReference w)
      else if item < d.item then .error (.usedBeforeDeclaration w d.span)
      else inScope declared item rest

/-- Add a signature unless its name is taken. -/
def addSignature (signatures : Table Signature) (s : Signature) :
    Except BuildError (Table Signature) :=
  match signatures.lookup s.name with
  | some first => .error (.duplicateSignature s.name s.span first.span)
  | none => .ok (signatures ++ [(s.name, s)])

/-- A program in progress. -/
structure Draft where
  next : NodeId
  signatures : Table Signature
  functors : Table Node
  root : Option Node
deriving DecidableEq, Repr

namespace Draft

def blank : Draft := ⟨0, [], [], none⟩

/-- Add the item at a position. -/
def add (declared : Table Declaration) (position : Nat) (d : Draft) :
    Item → Except BuildError Draft
  | .signature name ty span => do
    let signatures ← addSignature d.signatures ⟨name.text, ty, span⟩
    .ok { d with signatures }
  | .functor name body span => do
    inScope declared position body.words
    let (node, next) := body.number d.next
    let functor := Node.functor next name.text node span
    .ok { d with next := next + 1, functors := d.functors ++ [(name.text, functor)] }
  | .expression body span =>
    match d.root with
    | some root => .error (.secondExpression span root.span)
    | none => do
      inScope declared position body.words
      let (node, next) := body.number d.next
      .ok { d with next, root := some node }

/-- Add items, the first of which has the given position. -/
def addAll (declared : Table Declaration) : Nat → Draft → List Item → Except BuildError Draft
  | _, d, [] => .ok d
  | n, d, item :: rest => do
    let d ← d.add declared n item
    addAll declared (n + 1) d rest

end Draft

/-- The program that items make, in a text with the given span. -/
def build (items : List Item) (text : Span) : Except BuildError Program := do
  distinctFunctors [] items
  let d ← Draft.blank.addAll (declarations 0 items) 0 items
  match d.root with
  | some root => .ok ⟨d.signatures, d.functors, root, text⟩
  | none => .error (.noExpression text)

/-- The signatures among items, whose names have to differ. -/
def buildSignatures (items : List Item) : Except BuildError (List Signature) := do
  let table ← items.foldlM (fun t item ↦ match item with
    | .signature name ty span => addSignature t ⟨name.text, ty, span⟩
    | _ => .ok t) []
  .ok (table.map (·.2))

end Taskflow.Grammar
