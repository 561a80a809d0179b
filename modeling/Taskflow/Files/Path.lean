/-!
# Paths

A path is a sequence of names with slashes between them, where a dot stands for the directory that
one is in and two dots for the one around it.
-/

namespace Taskflow.Path

/-- A part of a path. -/
inductive Part where
  | here
  | up
  | name (s : String)
deriving DecidableEq, Repr

/-- The bytes that a name can have. -/
def nameLimit : Nat := 255

/-- The bytes that a path can have. -/
def lengthLimit : Nat := 4095

/-- The part that stands between two slashes.  Nothing between them stands for no step, as a dot
does. -/
def part (s : String) : Part :=
  if s = "" ∨ s = "." then .here else if s = ".." then .up else .name s

/-- The parts of a path in order. -/
def parts (path : String) : List Part := (path.splitOn "/").map part

/-- The names on a path. -/
def names (path : String) : List String :=
  (parts path).filterMap fun p ↦
    match p with
    | .name s => some s
    | _ => none

/-- The path with an extension behind its last name.  Slashes and dots behind that do not count; a
path that ends by going up, or in the directory that it begins in, has none. -/
def withExtension? (path extension : String) : Option String :=
  let backwards := (path.splitOn "/").reverse.dropWhile fun s ↦ part s = .here
  match backwards with
  | [] => none
  | last :: _ =>
    if part last = .up then none
    else some ("/".intercalate backwards.reverse ++ "." ++ extension)

end Taskflow.Path
