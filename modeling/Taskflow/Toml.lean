import Taskflow.Double

/-!
# TOML documents

Settings are written in TOML: a document is a table of keys and values, where a value can be a table
again.
-/

namespace Taskflow

/-- A value of a TOML document. -/
inductive Toml where
  | text (s : String)
  /-- a date, a time or both, by its canonical text -/
  | moment (s : String)
  | int (n : Int)
  | real (x : Double)
  | bool (b : Bool)
  | array (items : List Toml)
  | table (entries : List (String × Toml))
deriving Repr, Inhabited

namespace Toml

/-! ## Quotes -/

/-- The four ways to quote a text. -/
structure Quotes where
  /-- the quotation mark; backslashes are escapes only between double quotes -/
  mark : Char
  /-- whether there are three at either end, so that the text can have several lines -/
  triple : Bool
deriving DecidableEq, Repr

namespace Quotes

def basic : Quotes := ⟨'"', false⟩

def literal : Quotes := ⟨'\'', false⟩

def longBasic : Quotes := ⟨'"', true⟩

def longLiteral : Quotes := ⟨'\'', true⟩

def escapes (q : Quotes) : Bool := q.mark == '"'

/-- What stands before and behind the text. -/
def marks (q : Quotes) : String := String.ofList (List.replicate (if q.triple then 3 else 1) q.mark)

end Quotes

/-! ## Writing texts -/

/-- Whether a character can only be written with an escape: control characters are such, apart from
tabs and line ends. -/
def needsEscape (c : Char) : Bool := (c.toNat < 32 && c != '\t' && c != '\n') || c.toNat == 127

/-- The length of the longest run of a character, given the length of the run in front. -/
def longestRun (mark : Char) (run : Nat) : List Char → Nat
  | [] => run
  | c :: rest =>
    if c = mark then longestRun mark (run + 1) rest else max run (longestRun mark 0 rest)

/-- How a text is written: in the first of the basic, the literal, the long basic and the long
literal form that can hold it without escapes of quotes, backslashes and control characters; or else
with escapes, and long if it has several lines. -/
def quoting (s : String) : Quotes :=
  let cs := s.toList
  let lines := cs.contains '\n'
  let controls := cs.any needsEscape
  let backslashes := cs.contains '\\'
  let double := longestRun '"' 0 cs
  let single := longestRun '\'' 0 cs
  if !controls && !backslashes && double = 0 && !lines then .basic
  else if !controls && single = 0 && !lines then .literal
  else if !controls && !backslashes && double ≤ 2 then .longBasic
  else if !controls && single ≤ 2 then .longLiteral
  else if lines then .longBasic
  else .basic

/-- A digit of four hexadecimal ones. -/
def hexDigits (n : Nat) : List Char :=
  [n / 4096 % 16, n / 256 % 16, n / 16 % 16, n % 16].map fun d ↦ (Nat.digitChar d).toUpper

/-- The escape of a character between basic quotes, if it needs one.  Line ends and up to two double
quotes in a row, of which `run` stand before this one, need none between long quotes. -/
def escape? (long : Bool) (run : Nat) (c : Char) : Option (List Char) :=
  if c = '"' then if long && run < 2 then none else some ['\\', '"']
  else if c = '\\' then some ['\\', '\\']
  else if c = '\n' then if long then none else some ['\\', 'n']
  else if c = '\x08' then some ['\\', 'b']
  else if c = '\t' then some ['\\', 't']
  else if c = '\x0c' then some ['\\', 'f']
  else if c = '\r' then some ['\\', 'r']
  else if c.toNat < 32 ∨ c.toNat = 127 then some ('\\' :: 'u' :: hexDigits c.toNat)
  else none

/-- A text between basic quotes, where `run` double quotes stand in front without an escape. -/
def escaped (long : Bool) (run : Nat) : List Char → List Char
  | [] => []
  | c :: rest =>
    match escape? long run c with
    | some cs => cs ++ escaped long 0 rest
    | none => c :: escaped long (if c = '"' then run + 1 else 0) rest

/-- The written form of a text.  A line end behind the opening quotes does not count. -/
def quote (s : String) : String :=
  let q := quoting s
  q.marks ++ (if q.triple && s.toList.contains '\n' then "\n" else "")
    ++ (if q.escapes then String.ofList (escaped q.triple 0 s.toList) else s) ++ q.marks

end Toml

end Taskflow
