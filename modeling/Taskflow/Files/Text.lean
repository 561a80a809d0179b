/-!
# Text in files

A file holds bytes.  It is text if they are well-formed; of a file that is read line by line, the
lines before the first malformed one are text too.
-/

namespace Taskflow.Files

/-- The text of bytes, which have to be well-formed. -/
def text? (bytes : ByteArray) : Option String := String.fromUTF8? bytes

/-- Cut bytes behind every line feed. -/
def byteLines : List UInt8 → List (List UInt8)
  | [] => []
  | b :: rest =>
    if b = 10 then [b] :: byteLines rest
    else
      match byteLines rest with
      | [] => [[b]]
      | line :: lines => (b :: line) :: lines

/-- The lines of a file, with their line feeds, up to the first that is malformed; a mark of the
byte order in front does not count. -/
def textLines (bytes : ByteArray) : List (List Char) :=
  let lines := (byteLines bytes.toList).map fun line ↦ (text? ⟨line.toArray⟩).map String.toList
  match (lines.takeWhile Option.isSome).filterMap id with
  | ('\ufeff' :: line) :: rest => line :: rest
  | lines => lines

end Taskflow.Files
