import Taskflow.Environment
import Taskflow.Wire.Basic

/-!
# Types as documents

The key `t` of a type's document says which form it has.
-/

namespace Taskflow

namespace Ty

def encode : Ty → Json
  | .mono name => .obj [("t", .str "Monomorphic"), ("name", .str name)]
  | .var name => .obj [("t", .str "Variable"), ("name", .str name)]
  | .fn a b => .obj [("t", .str "Function"), ("domain", a.encode), ("codomain", b.encode)]
  | .prod a b => .obj [("t", .str "Product"), ("left", a.encode), ("right", b.encode)]
  | .unit => .obj [("t", .str "Unit")]

/-- The forms of types. -/
def forms : Json.Forms :=
  [("Monomorphic", ["name"]), ("Variable", ["name"]), ("Function", ["domain", "codomain"]),
    ("Product", ["left", "right"]), ("Unit", [])]

/-- Decode a type, in which forms can be numbered if it is part of a record with a tag. -/
def decodeFrom? (numbered : Bool) (j : Json) : Option Ty :=
  match _h : j.tagged? forms numbered with
  | some (form, es) =>
    if form = "Monomorphic" then do some (.mono (← (← es.lookup "name").str?))
    else if form = "Variable" then do some (.var (← (← es.lookup "name").str?))
    else if form = "Function" then
      match _h₁ : es.lookup "domain", _h₂ : es.lookup "codomain" with
      | some a, some b => do some (.fn (← decodeFrom? true a) (← decodeFrom? true b))
      | _, _ => none
    else if form = "Product" then
      match _h₁ : es.lookup "left", _h₂ : es.lookup "right" with
      | some a, some b => do some (.prod (← decodeFrom? true a) (← decodeFrom? true b))
      | _, _ => none
    else if form = "Unit" then some .unit
    else none
  | none => none
termination_by sizeOf j
decreasing_by all_goals exact Json.sizeOf_lookup_tagged_lt _h ‹_›

/-- Decode a type that is no part of another one. -/
def decode? (j : Json) : Option Ty := decodeFrom? false j

end Ty

namespace Environment

def encode (env : Environment) : Json := .obj (env.entries.map fun e ↦ (e.1, e.2.encode))

def decode? (j : Json) : Option Environment := do
  some (.ofList (← Json.tableOf? Ty.decode? (← j.entries?)))

end Environment

end Taskflow
