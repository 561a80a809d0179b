import Taskflow.Table
import Taskflow.Toml

/-!
# Tables under construction

A document defines its tables bit by bit: by headers, by dotted keys, and by headers of tables
inside them.  A draft remembers how each table came about, because that decides what may still be
added to it.
-/

namespace Taskflow.Toml

/-- How a table came about. -/
inductive Origin where
  /-- it only lies on the way to another table -/
  | implied
  /-- by a dotted key -/
  | dotted
  /-- by a header -/
  | header
deriving DecidableEq, Repr

/-- A value of a document that is not yet complete. -/
inductive Draft where
  | value (v : Toml)
  | table (origin : Origin) (entries : List (String × Draft))
  /-- an array of tables, the latest first -/
  | tables (latest : List (String × Draft)) (others : List Toml)
deriving Inhabited

namespace Draft

/-- Entries of a table. -/
abbrev Entries := Table Draft

/-- Change the table that a path leads to.  The way goes through tables, and through the latest
table of an array of them; tables that are missing come about as `missing`.  Dotted keys do not lead
through tables that have a header of their own. -/
def change (missing : Origin) (f : Origin → Entries → Option Entries) :
    List String → Origin → Entries → Option Entries
  | [], origin, entries => f origin entries
  | key :: path, _, entries =>
    match entries.lookup key with
    | none => do
      let inner ← change missing f path missing []
      some (Table.put key (.table missing inner) entries)
    | some (.table origin inner) =>
      if missing = .dotted ∧ origin = .header then none
      else do
        let inner ← change missing f path origin inner
        some (Table.put key (.table origin inner) entries)
    | some (.tables latest others) => do
      let latest ← change missing f path .header latest
      some (Table.put key (.tables latest others) entries)
    | some (.value _) => none

/-- Define a key, at the end of dotted ones, which have to lead to a table of their own kind. -/
def define (dotted : List String) (key : String) (v : Toml) (origin : Origin) (entries : Entries) :
    Option Entries :=
  change .dotted (fun origin entries ↦
    if (origin == .dotted) == dotted.isEmpty then none
    else if (entries.lookup key).isSome then none
    else some (Table.put key (.value v) entries)) dotted origin entries

/-- Define a table by a header, whose last key is `key`.  It may lie on the way to another one that
is there; its place is that of its own header all the same, behind the entries before it. -/
def defineTable (key : String) (entries : Entries) : Option Entries :=
  match entries.lookup key with
  | none => some (entries ++ [(key, .table .header [])])
  | some (.table .implied inner) =>
    some (entries.filter (·.1 != key) ++ [(key, .table .header inner)])
  | some _ => none

mutual

/-- The value as it is. -/
def toToml : Draft → Toml
  | .value v => v
  | .table _ entries => .table (tomlEntries entries)
  | .tables latest others => .array (others.reverse ++ [.table (tomlEntries latest)])

def tomlEntries : List (String × Draft) → List (String × Toml)
  | [] => []
  | (k, d) :: rest => (k, d.toToml) :: tomlEntries rest

end

/-- Begin another table of an array of them. -/
def defineItem (key : String) (entries : Entries) : Option Entries :=
  match entries.lookup key with
  | none => some (Table.put key (.tables [] []) entries)
  | some (.tables latest others) =>
    some (Table.put key (.tables [] (.table (tomlEntries latest) :: others)) entries)
  | some _ => none

end Draft

end Taskflow.Toml
