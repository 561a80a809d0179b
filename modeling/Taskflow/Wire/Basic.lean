import Taskflow.Digits
import Taskflow.Json

/-!
# Reading documents field by field

Decoders take a document apart and give nothing if it has not the form that they expect.  A record
is an object, in which fields that nobody asks for are ignored, or an array of its fields in order.
A record of several forms says by a tag which one it has; inside another such record the tag can be
a number.
-/

namespace Taskflow.Json

/-- Looking up a key gives a smaller document. -/
theorem sizeOf_lookup_lt {entries : List (String × Json)} {key : String} {j : Json}
    (h : entries.lookup key = some j) : sizeOf j < sizeOf (Json.obj entries) := by
  have smaller : sizeOf j < sizeOf entries := by
    induction entries with
    | nil => simp at h
    | cons e rest ih =>
      obtain ⟨k, v⟩ := e
      simp only [List.lookup_cons] at h
      split at h
      · cases h
        simp
        omega
      · have := ih h
        simp
        omega
  simp
  omega

/-- Looking up a name that was given to an item gives an item. -/
theorem mem_of_lookup_zip {names : List String} {items : List Json} {key : String} {j : Json}
    (h : (names.zip items).lookup key = some j) : j ∈ items := by
  induction names generalizing items with
  | nil => simp at h
  | cons n names ih =>
    cases items with
    | nil => simp at h
    | cons i items =>
      rw [List.zip_cons_cons, List.lookup_cons] at h
      split at h
      · cases h
        exact List.mem_cons_self
      · exact List.mem_cons_of_mem _ (ih h)

/-- The fields of a record, whose names in order are `names`. -/
def members? (names : List String) : Json → Option (List (String × Json))
  | .obj entries => some entries
  | .arr items => if items.length ≤ names.length then some (names.zip items) else none
  | _ => none

/-- The forms of a record of several forms, each with the names of its fields in order. -/
abbrev Forms := List (String × List String)

/-- The form that a tag names: by its name or, where forms are numbered, by its place among all. -/
def form? (forms : Forms) (numbered : Bool) : Json → Option (String × List String)
  | .str name => forms.find? (·.1 == name)
  | .int n => if numbered && 0 ≤ n then forms[n.toNat]? else none
  | _ => none

/-- The name of the form of a record of several forms, and its fields.  The tag is the field `t`, or
the first item of an array. -/
def tagged? (forms : Forms) (numbered : Bool) : Json → Option (String × List (String × Json))
  | .obj entries =>
    match (entries.lookup "t").bind (form? forms numbered) with
    | some (name, _) => some (name, entries)
    | none => none
  | .arr (tag :: items) =>
    match form? forms numbered tag with
    | some (name, fields) =>
      if items.length ≤ fields.length then some (name, fields.zip items) else none
    | none => none
  | _ => none

/-- The fields of a record of several forms are smaller than the record. -/
theorem sizeOf_lookup_tagged_lt {forms : Forms} {numbered : Bool} {j field : Json}
    {key name : String} {entries : List (String × Json)}
    (h : j.tagged? forms numbered = some (name, entries))
    (hf : entries.lookup key = some field) : sizeOf field < sizeOf j := by
  unfold tagged? at h
  split at h
  · split at h
    · cases h
      exact sizeOf_lookup_lt hf
    · cases h
  · split at h
    · split at h
      · cases h
        have := List.sizeOf_lt_of_mem (mem_of_lookup_zip hf)
        simp
        omega
      · cases h
    · cases h
  · cases h

/-- The word that names one of several choices. -/
def choice? : Json → Option String
  | .str s => some s
  | .obj [(s, .null)] => some s
  | _ => none

def str? : Json → Option String
  | .str s => some s
  | _ => none

def bool? : Json → Option Bool
  | .bool b => some b
  | _ => none

/-- A whole number from zero to below `limit`. -/
def natBelow? (limit : Nat) : Json → Option Nat
  | .int n => if 0 ≤ n ∧ n < limit then some n.toNat else none
  | _ => none

/-- A count. -/
def count? : Json → Option Nat := natBelow? Digits.countLimit

/-- An optional field: nothing if it is absent or null, a failure if it does not decode. -/
def optional? {α : Type} (decode : Json → Option α) : Option Json → Option (Option α)
  | none => some none
  | some .null => some none
  | some j => (decode j).map some

/-- A field with a value for when it is absent. -/
def defaulted? {α : Type} (default : α) (decode : Json → Option α) : Option Json → Option α
  | none => some default
  | some j => decode j

/-- A field that has to be there. -/
def required? {α : Type} (decode : Json → Option α) (j : Option Json) : Option α := j.bind decode

/-- The items of an array. -/
def items? : Json → Option (List Json)
  | .arr items => some items
  | _ => none

/-- The entries of an object. -/
def entries? : Json → Option (List (String × Json))
  | .obj entries => some entries
  | _ => none

/-- Decode every entry of an object. -/
def tableOf? {α : Type} (decode : Json → Option α) :
    List (String × Json) → Option (List (String × α))
  | [] => some []
  | (k, j) :: rest => do
    let v ← decode j
    let others ← tableOf? decode rest
    some ((k, v) :: others)

/-- Decode every item of an array. -/
def listOf? {α : Type} (decode : Json → Option α) : List Json → Option (List α)
  | [] => some []
  | j :: rest => do
    let v ← decode j
    let others ← listOf? decode rest
    some (v :: others)

end Taskflow.Json
