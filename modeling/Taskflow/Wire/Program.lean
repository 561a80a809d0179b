import Taskflow.Program
import Taskflow.Wire.Ty

/-!
# Programs as documents

A span is left out where it is the one of something that came from no text.
-/

namespace Taskflow

namespace Span

def encode (s : Span) : Json :=
  .obj [("start", .int s.start.offset), ("end", .int s.stop.offset),
    ("start_line", .int s.start.line), ("start_col", .int s.start.column),
    ("end_line", .int s.stop.line), ("end_col", .int s.stop.column)]

def fields : List String := ["start", "end", "start_line", "start_col", "end_line", "end_col"]

def decode? (j : Json) : Option Span := do
  let es ← j.members? fields
  let number (key : String) := Json.required? Json.count? (es.lookup key)
  some ⟨⟨← number "start", ← number "start_line", ← number "start_col"⟩,
    ⟨← number "end", ← number "end_line", ← number "end_col"⟩⟩

/-- The field that holds a span. -/
def encodeField (s : Span) : List (String × Json) :=
  if s = .nowhere then [] else [("span", s.encode)]

def decodeField? (entries : List (String × Json)) : Option Span :=
  Json.defaulted? .nowhere decode? (entries.lookup "span")

end Span

namespace NodeId

/-- Ids in documents fit into 32 bits. -/
def idLimit : Nat := 4294967296

def encode (n : NodeId) : Json := .int (n : Nat)

def decode? : Json → Option NodeId := Json.natBelow? idLimit

end NodeId

namespace Node

def encode : Node → Json
  | .literal id name span =>
    .obj ([("t", .str "Literal"), ("id", id.encode), ("name", .str name)] ++ span.encodeField)
  | .composition id outer inner span =>
    .obj ([("t", .str "Composition"), ("id", id.encode), ("outer", outer.encode),
      ("inner", inner.encode)] ++ span.encodeField)
  | .product id left right span =>
    .obj ([("t", .str "Product"), ("id", id.encode), ("left", left.encode),
      ("right", right.encode)] ++ span.encodeField)
  | .functor id name body span =>
    .obj ([("t", .str "Functor"), ("id", id.encode), ("name", .str name),
      ("body", body.encode)] ++ span.encodeField)

/-- The forms of nodes. -/
def forms : Json.Forms :=
  [("Literal", ["id", "name", "span"]), ("Composition", ["id", "outer", "inner", "span"]),
    ("Product", ["id", "left", "right", "span"]), ("Functor", ["id", "name", "body", "span"])]

/-- Decode a node, in which forms can be numbered if it is part of another one. -/
def decodeFrom? (numbered : Bool) (j : Json) : Option Node :=
  match _h : j.tagged? forms numbered with
  | some (form, es) => do
    let id ← NodeId.decode? (← es.lookup "id")
    let span ← Span.decodeField? es
    if form = "Literal" then some (.literal id (← (← es.lookup "name").str?) span)
    else if form = "Composition" then
      match _h₁ : es.lookup "outer", _h₂ : es.lookup "inner" with
      | some outer, some inner =>
        some (.composition id (← decodeFrom? true outer) (← decodeFrom? true inner) span)
      | _, _ => none
    else if form = "Product" then
      match _h₁ : es.lookup "left", _h₂ : es.lookup "right" with
      | some left, some right =>
        some (.product id (← decodeFrom? true left) (← decodeFrom? true right) span)
      | _, _ => none
    else if form = "Functor" then
      let name ← (← es.lookup "name").str?
      match _h₁ : es.lookup "body" with
      | some body => some (.functor id name (← decodeFrom? true body) span)
      | none => none
    else none
  | none => none
termination_by sizeOf j
decreasing_by all_goals exact Json.sizeOf_lookup_tagged_lt _h ‹_›

/-- Decode a node that is no part of another one. -/
def decode? (j : Json) : Option Node := decodeFrom? false j

end Node

namespace Signature

def encode (s : Signature) : Json :=
  .obj ([("name", .str s.name), ("ty", s.ty.encode)] ++ s.span.encodeField)

def fields : List String := ["name", "ty", "span"]

def decode? (j : Json) : Option Signature := do
  let es ← j.members? fields
  some ⟨← Json.required? Json.str? (es.lookup "name"), ← Json.required? Ty.decode? (es.lookup "ty"),
    ← Span.decodeField? es⟩

end Signature

namespace Program

def encode (p : Program) : Json :=
  .obj ([("signatures", .obj (p.signatures.map fun s ↦ (s.1, s.2.encode))),
    ("functors", .obj (p.functors.map fun f ↦ (f.1, f.2.encode))),
    ("root", p.root.encode)] ++ p.span.encodeField)

def fields : List String := ["signatures", "functors", "root", "span"]

def decode? (j : Json) : Option Program := do
  let es ← j.members? fields
  let table {α : Type} (decode : Json → Option α) (key : String) : Option (Table α) := do
    Json.tableOf? decode (← Json.required? Json.entries? (es.lookup key))
  some ⟨← table Signature.decode? "signatures", ← table Node.decode? "functors",
    ← Json.required? Node.decode? (es.lookup "root"), ← Span.decodeField? es⟩

end Program

end Taskflow
