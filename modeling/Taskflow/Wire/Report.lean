import Taskflow.Digits
import Taskflow.Typing.Report
import Taskflow.Wire.Program

/-!
# Reports as documents
-/

namespace Taskflow

/-- A field that is left out when there is nothing to put there. -/
def optionalField {α : Type} (key : String) (encode : α → Json) : Option α → List (String × Json)
  | none => []
  | some a => [(key, encode a)]

namespace TypeErrorKind

def decode? (j : Json) : Option TypeErrorKind := do
  let name ← j.choice?
  [.unboundTask, .compositionMismatch, .productMismatch].find? fun kind ↦ kind.name == name

end TypeErrorKind

namespace TypeError

def encode (e : TypeError) : Json :=
  .obj ([("kind", .str e.kind.name), ("node", e.node.encode), ("subject", .str e.subject),
      ("span", e.span.encode)]
    ++ optionalField "expected" Ty.encode e.expected ++ optionalField "actual" Ty.encode e.actual
    ++ [("message", .str e.message)])

def fields : List String := ["kind", "node", "subject", "span", "expected", "actual", "message"]

def decode? (j : Json) : Option TypeError := do
  let es ← j.members? fields
  some ⟨← Json.required? TypeErrorKind.decode? (es.lookup "kind"),
    ← Json.required? NodeId.decode? (es.lookup "node"),
    ← Json.required? Json.str? (es.lookup "subject"),
    ← Json.required? Span.decode? (es.lookup "span"),
    ← Json.optional? Ty.decode? (es.lookup "expected"),
    ← Json.optional? Ty.decode? (es.lookup "actual"),
    ← Json.required? Json.str? (es.lookup "message")⟩

end TypeError

namespace Warning

def encode (w : Warning) : Json :=
  .obj [("span", w.span.encode), ("message", .str w.message), ("severity", .str "warning"),
    ("rule_id", .str w.rule)]

def fields : List String := ["span", "message", "severity", "rule_id"]

def decode? (j : Json) : Option Warning := do
  let es ← j.members? fields
  if (← Json.required? Json.choice? (es.lookup "severity")) = "warning" then
    some ⟨← Json.required? Span.decode? (es.lookup "span"),
      ← Json.required? Json.str? (es.lookup "message"),
      ← Json.required? Json.str? (es.lookup "rule_id")⟩
  else none

end Warning

/-- The number that a key writes in decimal, without leading zeros. -/
def nodeIdOfKey? (key : String) : Option NodeId :=
  match Digits.nat? key.toList with
  | some n => if n < NodeId.idLimit ∧ Nat.repr n = key then some n else none
  | none => none

/-- Types by node. -/
def encodeNodeTypes (types : SortedMap NodeId Ty) : Json :=
  .obj (types.entries.map fun e ↦ (Nat.repr e.1, e.2.encode))

def decodeNodeTypes? (j : Json) : Option (SortedMap NodeId Ty) := do
  let table ← Json.tableOf? Ty.decode? (← j.entries?)
  let keyed ← table.mapM fun e ↦ (nodeIdOfKey? e.1).map (·, e.2)
  some (.ofList keyed)

namespace Report

def encode (r : Report) : Json :=
  .obj ([("success", .bool r.success), ("errors", .arr (r.errors.map TypeError.encode)),
      ("warnings", .arr (r.warnings.map Warning.encode))]
    ++ optionalField "program_type" Ty.encode r.programType
    ++ optionalField "environment" Environment.encode r.environment
    ++ [("node_types", encodeNodeTypes r.nodeTypes)])

def fields : List String :=
  ["success", "errors", "warnings", "program_type", "environment", "node_types"]

def decode? (j : Json) : Option Report := do
  let es ← j.members? fields
  let list {α : Type} (decode : Json → Option α) (key : String) : Option (List α) := do
    Json.listOf? decode (← Json.required? Json.items? (es.lookup key))
  some ⟨← Json.required? Json.bool? (es.lookup "success"), ← list TypeError.decode? "errors",
    ← list Warning.decode? "warnings", ← Json.optional? Ty.decode? (es.lookup "program_type"),
    ← Json.optional? Environment.decode? (es.lookup "environment"),
    ← Json.required? decodeNodeTypes? (es.lookup "node_types")⟩

end Report

end Taskflow
