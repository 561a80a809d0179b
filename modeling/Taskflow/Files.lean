import Taskflow.Files.Path
import Taskflow.Files.Text
import Taskflow.Table

/-!
# Files

What a command knows of the files around it is one operation, which reads a file.  The operation may
have effects; files that are given beforehand are read without any.
-/

namespace Taskflow

/-- Why a file cannot be read. -/
inductive FileError where
  | missing
  | directory
  /-- the way to it leads through a file -/
  | notDirectory
  /-- its path or a name on the path -/
  | tooLong
  /-- its path holds the character that ends paths -/
  | badPath
  /-- it holds malformed text -/
  | notText
  | other (message : String)
deriving DecidableEq, Repr

namespace FileError

def message : FileError → String
  | .missing => "No such file or directory (os error 2)"
  | .directory => "Is a directory (os error 21)"
  | .notDirectory => "Not a directory (os error 20)"
  | .tooLong => "File name too long (os error 36)"
  | .badPath => "file name contained an unexpected NUL byte"
  | .notText => "stream did not contain valid UTF-8"
  | .other message => message

end FileError

/-- Files that can be read. -/
structure Files (m : Type → Type) where
  read : String → m (Except FileError ByteArray)

namespace Files

/-- Read a file that has to be well-formed text. -/
def readText {m : Type → Type} [Monad m] (files : Files m) (path : String) :
    m (Except FileError String) := do
  match ← files.read path with
  | .ok bytes =>
    match text? bytes with
    | some s => pure (.ok s)
    | none => pure (.error .notText)
  | .error e => pure (.error e)

/-! ## Files given beforehand -/

/-- A place that a path can lead to. -/
inductive Place where
  /-- a directory that is given, by the names that lead to it -/
  | inside (way : List String)
  /-- a directory around those that are given, of which nothing is known but that it is there -/
  | around
  | file (bytes : ByteArray)

/-- Go on from a place by one part of a path. -/
def enter (files : Table ByteArray) : Place → Path.Part → Except FileError Place
  | .file _, _ => .error .notDirectory
  | place, .here => .ok place
  | .inside [], .up | .around, .up => .ok .around
  | .inside way, .up => .ok (.inside way.dropLast)
  | place, .name name =>
    if Path.nameLimit < name.utf8ByteSize then .error .tooLong
    else
      match place with
      | .inside way =>
        let way := way ++ [name]
        match files.find? fun f ↦ Path.names f.1 = way with
        | some (_, bytes) => .ok (.file bytes)
        | none =>
          if files.any fun f ↦ way.isPrefixOf (Path.names f.1) then .ok (.inside way)
          else .error .missing
      | _ => .error .missing

/-- Follow a path from the directory of the given files. -/
def follow (files : Table ByteArray) (path : String) : Except FileError Place :=
  if path.toList.contains '\x00' then .error .badPath
  else if path.isEmpty then .error .missing
  else if Path.lengthLimit < path.utf8ByteSize then .error .tooLong
  else (Path.parts path).foldlM (enter files) (if path.startsWith "/" then .around else .inside [])

/-- Files in one directory and in directories below it, by path. -/
def ofTable (files : Table ByteArray) : Files Id where
  read path :=
    match follow files path with
    | .ok (.file bytes) => .ok bytes
    | .ok _ => .error .directory
    | .error e => .error e

end Files

end Taskflow
