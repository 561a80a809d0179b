import Taskflow.Json.Print
import Taskflow.Ty

/-!
# Values

What flows between the stages of a running program.  The payload of a task is an opaque document; a
tag on it is the task's claim about its type, and a product pairs the values of its branches.
-/

namespace Taskflow

/-- A value of a running program. -/
inductive Val where
  | unit
  | data (tag : Option String) (payload : Json)
  | pair (left right : Val)
deriving DecidableEq, Repr, Inhabited

namespace Val

/-- The value that a document stands for as an input. -/
def ofJson : Json → Val
  | .null => .unit
  | j => .data none j

/-- The document that remains of a value when its tags are dropped. -/
def toJson : Val → Json
  | .unit => .null
  | .data _ payload => payload
  | .pair left right => .arr [left.toJson, right.toJson]

/-- The variable that stands for a side of a pair about which nothing is known. -/
def unknown : Ty := .var "_"

/-- What a value says about its type: nothing if it has no tag anywhere. -/
def runtimeType : Val → Option Ty
  | .unit => some .unit
  | .data tag _ => tag.map .mono
  | .pair left right =>
    match left.runtimeType, right.runtimeType with
    | none, none => none
    | l, r => some (.prod (l.getD unknown) (r.getD unknown))

def render : Val → String
  | .unit => "()"
  | .data none payload => payload.compact
  | .data (some tag) payload => payload.compact ++ ": " ++ tag
  | .pair left right => "(" ++ left.render ++ ", " ++ right.render ++ ")"

end Val

end Taskflow
