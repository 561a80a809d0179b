import Taskflow.Value
import Taskflow.Wire.Basic

/-!
# Values as documents

The key `t` of a value's document says which form it has and the key `v` holds its content.
-/

namespace Taskflow.Val

def encode : Val → Json
  | .unit => .obj [("t", .str "Unit")]
  | .data none payload => .obj [("t", .str "Data"), ("v", .obj [("payload", payload)])]
  | .data (some tag) payload =>
    .obj [("t", .str "Data"), ("v", .obj [("ty", .str tag), ("payload", payload)])]
  | .pair left right => .obj [("t", .str "Pair"), ("v", .arr [left.encode, right.encode])]

/-- The form of a value's document and its content, which is one of two items if the document is an
array and can be missing otherwise. -/
def parts? : Json → Option (String × Option Json)
  | .obj entries =>
    match (entries.lookup "t").bind Json.choice? with
    | some form => some (form, entries.lookup "v")
    | none => none
  | .arr [.str form, content] => some (form, some content)
  | _ => none

/-- The content is smaller than the document. -/
theorem sizeOf_content_lt {j content : Json} {form : String}
    (h : parts? j = some (form, some content)) : sizeOf content < sizeOf j := by
  unfold parts? at h
  split at h
  · split at h
    · exact Json.sizeOf_lookup_lt (congrArg Prod.snd (Option.some.inj h))
    · cases h
  · cases h
    simp
    omega
  · cases h

/-- The content of the unit is null or missing, that of data is an object, and that of a pair is an
array of two. -/
def decode? (j : Json) : Option Val :=
  match _h : parts? j with
  | some (form, some content) =>
    if form = "Unit" then
      match content with
      | .null => some .unit
      | _ => none
    else if form = "Data" then do
      let es ← content.entries?
      some (.data (← Json.optional? Json.str? (es.lookup "ty")) (← es.lookup "payload"))
    else if form = "Pair" then
      match _hv : content with
      | .arr [left, right] => do some (.pair (← decode? left) (← decode? right))
      | _ => none
    else none
  | some (form, none) => if form = "Unit" then some .unit else none
  | none => none
termination_by sizeOf j
decreasing_by
  all_goals
    have := sizeOf_content_lt _h
    simp at this ⊢
    omega

end Taskflow.Val
