import Taskflow.Table
import Taskflow.Text.Alphanumeric

/-!
# Files of variables

A file of variables has a line `KEY=value` for each, where the value can be quoted, can mention
other variables and can go over several lines between quotes.  Variables that are there already
stay.  Reading ends at the first line that is malformed; what stands before it counts.
-/

namespace Taskflow.Command

/-- Whether a character is a blank or ends a line. -/
def isBlank (c : Char) : Bool :=
  let n := c.toNat
  (9 ≤ n && n ≤ 13) || n == 0x20 || n == 0x85 || n == 0xA0 || n == 0x1680
    || (0x2000 ≤ n && n ≤ 0x200A) || n == 0x2028 || n == 0x2029 || n == 0x202F || n == 0x205F
    || n == 0x3000

/-! ## Lines -/

/-- Whether a line goes on after its line end. -/
inductive LineMode where
  | plain
  /-- after a blank, where a comment can begin -/
  | blank
  | escape
  | weak
  | weakEscape
  | strong
  | strongEscape
  | comment
deriving DecidableEq, Repr

/-- What a character does to a line; a comment takes the rest of it. -/
def LineMode.next (mode : LineMode) (c : Char) : LineMode :=
  let opening : LineMode :=
    if c = '\\' then .escape else if c = '"' then .weak else if c = '\'' then .strong else .plain
  match mode with
  | .blank => if c = '#' then .comment else opening
  | .escape => .plain
  | .plain => if isBlank c && c != '\n' && c != '\r' then .blank else opening
  | .weak => if c = '\\' then .weakEscape else if c = '"' then .plain else .weak
  | .weakEscape => .weak
  | .strong => if c = '\\' then .strongEscape else if c = '\'' then .plain else .strong
  | .strongEscape => .strong
  | .comment => .comment

/-- Read a part of a line up to a comment: what counts of it, and how it ends. -/
def scanPart (mode : LineMode) : List Char → List Char × LineMode
  | [] => ([], mode)
  | c :: rest =>
    match mode.next c with
    | .comment => ([], .comment)
    | mode =>
      let (kept, mode) := scanPart mode rest
      (c :: kept, mode)

/-- The lines of a file, where a line end between quotes does not end one; nothing in place of one
that never ends, which is the last.  `begun` is what the line holds so far. -/
def logicalLines (begun : List Char) (mode : LineMode) :
    List (List Char) → List (Option (List Char))
  | [] => if mode = .plain then [] else [none]
  | part :: parts =>
    let line := begun ++ part
    if (line.dropWhile isBlank).head? = some '#' then some [] :: logicalLines [] .plain parts
    else
      let (kept, after) := scanPart mode part
      if after = .plain ∨ after = .comment then
        some (begun ++ kept) :: logicalLines [] .plain parts
      else logicalLines line after parts

/-! ## Values -/

/-- Whether a name of another variable is being read. -/
inductive Mention where
  | none
  /-- behind a dollar sign -/
  | bare (name : List Char)
  /-- in braces -/
  | braced (name : List Char)
deriving DecidableEq, Repr

/-- What the reader of a value is in the middle of. -/
structure ValueState where
  strong : Bool
  weak : Bool
  escaped : Bool
  /-- after a blank, behind which only a comment may follow -/
  ended : Bool
  mention : Mention
  output : List Char

namespace ValueState

/-- Put in what a variable holds; one that is not there holds nothing. -/
def expand (vars : Table String) (name : List Char) (s : ValueState) : ValueState :=
  { s with output := s.output ++ ((vars.lookup (String.ofList name)).getD "").toList }

def push (c : Char) (s : ValueState) : ValueState := { s with output := s.output ++ [c] }

/-- Read one character of a value; nothing if it is not allowed there. -/
def feed (vars : Table String) (s : ValueState) (c : Char) : Option ValueState :=
  if s.escaped then
    if c = '\\' ∨ c = '\'' ∨ c = '"' ∨ c = '$' ∨ c = ' ' then
      some { s.push c with escaped := false }
    else if c = 'n' then some { s.push '\n' with escaped := false }
    else none
  else if s.strong then some (if c = '\'' then { s with strong := false } else s.push c)
  else
    match s.mention with
    | .bare name =>
      if Text.isAlphanumeric c then some { s with mention := .bare (name ++ [c]) }
      else if c = '\x7b' ∧ name = [] then some { s with mention := .braced [] }
      else
        let s := s.expand vars name
        if c = '$' then some { s with mention := .bare [] }
        else some { s.push c with mention := .none }
    | .braced name =>
      if c = '\x7d' then some { s.expand vars name with mention := .none }
      else some { s with mention := .braced (name ++ [c]) }
    | .none =>
      if c = '$' then some { s with mention := .bare [] }
      else if s.weak then
        if c = '"' then some { s with weak := false }
        else if c = '\\' then some { s with escaped := true }
        else some (s.push c)
      else if c = '\'' then some { s with strong := true }
      else if c = '"' then some { s with weak := true }
      else if c = '\\' then some { s with escaped := true }
      else if c = ' ' ∨ c = '\t' then some { s with ended := true }
      else some (s.push c)

end ValueState

/-- The value at its end, if nothing is left open. -/
def ValueState.finish (vars : Table String) (s : ValueState) : Option String :=
  if s.strong || s.weak then none
  else
    match s.mention with
    | .braced _ => none
    | .bare name => some (String.ofList (s.expand vars name).output)
    | .none => some (String.ofList s.output)

/-- Read a value to its end. -/
def readValue (vars : Table String) (s : ValueState) : List Char → Option String
  | [] => s.finish vars
  | c :: rest =>
    if s.ended then
      if c = ' ' ∨ c = '\t' then readValue vars s rest
      else if c = '#' then s.finish vars
      else none
    else do readValue vars (← s.feed vars c) rest

/-- Take a name off the front. -/
def readKey (cs : List Char) : Option (String × List Char) :=
  let inKey (c : Char) : Bool := c.isAlphanum || c == '_' || c == '.'
  match cs with
  | [] => none
  | c :: _ =>
    if c.isAlpha || c == '_' then
      some (String.ofList (cs.takeWhile inKey), cs.dropWhile inKey)
    else none

/-- What a line says: nothing, or the value of a variable. -/
def readLine (vars : Table String) (line : List Char) : Option (Option (String × String)) := do
  let cs := (line.reverse.dropWhile isBlank).reverse.dropWhile isBlank
  if cs.isEmpty || cs.head? == some '#' then some none
  else
    let (key, rest) ← readKey cs
    let rest := rest.dropWhile isBlank
    let (key, rest) ← match rest with
      | '=' :: rest => some (key, rest)
      | rest =>
        if key = "export" then do
          let (key, rest) ← readKey rest
          match rest.dropWhile isBlank with
          | '=' :: rest => some (key, rest)
          | _ => none
        else none
    let value := rest.dropWhile isBlank
    if value.isEmpty || value.head? == some '#' then some (some (key, ""))
    else some (some (key, ← readValue vars ⟨false, false, false, false, .none, []⟩ value))

/-- Add the variables of lines, up to the first that is malformed. -/
def addLines (vars : Table String) : List (Option (List Char)) → Table String
  | [] => vars
  | none :: _ => vars
  | some line :: rest =>
    match readLine vars line with
    | none => vars
    | some none => addLines vars rest
    | some (some (key, value)) =>
      addLines (if (vars.lookup key).isSome then vars else vars ++ [(key, value)]) rest

/-- The variables that are there once the lines of a file have been read. -/
def addVariables (vars : Table String) (lines : List (List Char)) : Table String :=
  addLines vars (logicalLines [] .plain lines)

end Taskflow.Command
