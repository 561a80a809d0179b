import Taskflow.Run.Script
import Taskflow.Wire.Program
import Taskflow.Wire.Value

/-!
# Policies, violations and scripts as documents
-/

namespace Taskflow

namespace Policy

def encode (p : Policy) : Json := .str p.name

def decode? (j : Json) : Option Policy := do
  let name ← j.choice?
  [.failFast, .waitAll].find? fun p ↦ p.name == name

end Policy

namespace Violation

def encode (v : Violation) : Json :=
  .obj [("node", v.site.node.encode), ("task", .str v.site.name), ("span", v.site.span.encode),
    ("expected", v.expected.encode), ("actual", v.actual.encode)]

def fields : List String := ["node", "task", "span", "expected", "actual"]

def decode? (j : Json) : Option Violation := do
  let es ← j.members? fields
  some ⟨⟨← Json.required? NodeId.decode? (es.lookup "node"),
      ← Json.required? Json.str? (es.lookup "task"),
      ← Json.required? Span.decode? (es.lookup "span")⟩,
    ← Json.required? Ty.decode? (es.lookup "expected"),
    ← Json.required? Ty.decode? (es.lookup "actual")⟩

end Violation

namespace Ending

/-- The ending of a step; of several that it names the first in this order counts. -/
def ofEntries (es : List (String × Json)) : Ending :=
  match es.lookup "value", es.lookup "tag", es.lookup "fail", es.lookup "timed_out_ns" with
  | some v, _, _, _ => .value (Val.decode? v)
  | none, some (.str name), _, _ => .tag name
  | none, _, some (.str message), _ => .fail message
  | none, _, _, some (.int n) => .timedOut ⟨n.toNat⟩
  | _, _, _, _ =>
    if es.lookup "cancelled" == some (.bool true) then .cancelled
    else if es.lookup "trail" == some (.bool true) then .trail
    else .echo

end Ending

namespace Step

def decode (j : Json) : Step where
  delay := ((j.get? "delay").bind Json.count?).getD 0
  cancelsScope := j.get? "cancel_scope" == some (.bool true)
  cancelsRun := j.get? "cancel_run" == some (.bool true)
  ending := .ofEntries (j.entries?.getD [])

end Step

namespace Script

/-- A step alone stands for a list of one. -/
def decodeSteps : Json → List Step
  | .arr steps => steps.map Step.decode
  | j => [Step.decode j]

def decode (j : Json) : Script := (j.entries?.getD []).map fun e ↦ (e.1, decodeSteps e.2)

end Script

end Taskflow
