import Taskflow.Toml.Draft
import Taskflow.Toml.Moment
import Taskflow.Toml.Scan

/-!
# Reading TOML

Marks are read one after the other.  A document is a sequence of lines, each with a header, with an
entry or empty; only arrays and texts in triple quotes go over several lines.
-/

namespace Taskflow.Toml

/-! ## Plain values -/

/-- Digits in groups: underscores stand between digits only and mean nothing. -/
def ungroup (isDigit : Char → Bool) : List Char → Option (List Char)
  | [] => none
  | [c] => if isDigit c then some [c] else none
  | c :: '_' :: rest => if isDigit c then (ungroup isDigit rest).map (c :: ·) else none
  | c :: rest => if isDigit c then (ungroup isDigit rest).map (c :: ·) else none

/-- A digit in a base of at most sixteen. -/
def isDigitIn (base : Nat) (c : Char) : Bool :=
  match hexValue? c with
  | some d => d < base
  | none => false

/-- A whole number, if it fits into 64 bits. -/
def whole? (n : Int) : Option Toml := if Digits.fitsSigned n then some (.int n) else none

/-- A whole number in a base, without a sign. -/
def inBase? (base : Nat) (cs : List Char) : Option Toml := do
  let digits ← ungroup (isDigitIn base) cs
  whole? (digits.foldl (fun n c ↦ base * n + (hexValue? c).getD 0) 0 : Nat)

/-- Whether digits are those of a whole number: none but zero begins with a zero. -/
def isWhole (digits : List Char) : Bool := digits.head? != some '0' || digits.length == 1

/-- A decimal number. -/
def decimal? (cs : List Char) : Option Toml := do
  let (negative, rest) := Digits.unsigned cs
  let inRun (c : Char) : Bool := c.isDigit || c == '_'
  let whole ← ungroup Char.isDigit (rest.takeWhile inRun)
  if !isWhole whole then none
  else
    let sign := if negative then ['-'] else []
    match rest.dropWhile inRun with
    | [] => (Digits.int? (sign ++ whole)).bind whole?
    | rest =>
      let (fraction, tail) ← match rest with
        | '.' :: rest =>
          (ungroup Char.isDigit (rest.takeWhile inRun)).map (·, rest.dropWhile inRun)
        | rest => some ([], rest)
      let exponent : Int ← match tail with
        | [] => some 0
        | e :: rest =>
          if e = 'e' ∨ e = 'E' then
            let (down, digits) := Digits.unsigned rest
            (ungroup Char.isDigit digits).map fun ds ↦
              if down then -(Digits.value ds : Int) else Digits.value ds
          else none
      let n := Digits.value (whole ++ fraction)
      match Double.nearest negative n (exponent - fraction.length) with
      | .infinity false => none
      | x => some (.real x)

/-- The value that plain characters write. -/
def plain? (cs : List Char) : Option Toml :=
  let s := String.ofList cs
  if s = "true" then some (.bool true)
  else if s = "false" then some (.bool false)
  else
    match cs with
    | '0' :: 'x' :: rest => inBase? 16 rest
    | '0' :: 'o' :: rest => inBase? 8 rest
    | '0' :: 'b' :: rest => inBase? 2 rest
    | _ =>
      let (negative, rest) := Digits.unsigned cs
      if rest = ['i', 'n', 'f'] then some (.real (.infinity negative))
      else if rest = ['n', 'a', 'n'] then some (.real .nan)
      else (moment? .plain cs).map .moment <|> decimal? cs

/-! ## Documents -/

/-- How many brackets can be inside each other, and how many parts a dotted key can have. -/
def depthLimit : Nat := 79

/-- A bracket around the value that is being read. -/
inductive Frame where
  /-- an array and its items so far, the latest first -/
  | array (items : List Toml)
  /-- a table in braces, and the key whose value is being read -/
  | braces (entries : Draft.Entries) (dotted : List String) (key : String)

/-- Where the reader stands. -/
inductive Phase where
  | lineStart
  /-- after an opening bracket at the start of a line -/
  | bracket
  /-- in a header after some keys, the latest first; `double` is for an array of tables -/
  | header (double : Bool) (keys : List String) (wantsKey : Bool)
  /-- after the first of two closing brackets -/
  | headerClose (keys : List String)
  /-- in a dotted key after some of its parts, the latest first; in braces there can be none at all
  right after the opening one, which is when `closes` -/
  | key (keys : List String) (wantsKey closes : Bool)
  /-- before a value -/
  | value
  /-- in a plain value -/
  | plain (cs : List Char)
  /-- after a date and a space, which can stand between a date and a time -/
  | date (cs : List Char)
  /-- after a value in an array or in braces -/
  | after (v : Toml)
  /-- after all that a line holds -/
  | lineEnd

/-- What has been read. -/
structure Reading where
  document : Draft.Entries
  /-- the keys of the last header, which lead to the table of the entries below it -/
  table : List String
  /-- the key left of the value that is being read: the parts before the last, and the last -/
  dotted : List String
  key : String
  frames : List Frame
  phase : Phase

namespace Reading

/-- A value is complete. -/
def complete (r : Reading) (v : Toml) : Option Reading :=
  match r.frames with
  | [] => do
    let document ← Draft.change .implied (Draft.define r.dotted r.key v) r.table .header r.document
    some { r with document, phase := .lineEnd }
  | _ => some { r with phase := .after v }

/-- A value ends with the innermost bracket around it. -/
def closeFrame (r : Reading) (rest : List Frame) (v : Toml) : Option Reading :=
  { r with frames := rest }.complete v

/-- Whether a plain text can be a key. -/
def keyOf? (cs : List Char) : Option String :=
  if cs.all fun c ↦ c != '+' && c != ':' then some (String.ofList cs) else none

/-- Read one mark that does not continue a plain value. -/
def stepOther (r : Reading) (m : Mark) : Option Reading :=
  match r.phase, m, r.frames with
  -- lines
  | .lineStart, .blank _, _ | .lineStart, .lineEnd, _ | .lineEnd, .blank _, _ => some r
  | .lineEnd, .lineEnd, _ => some { r with phase := .lineStart }
  | .lineStart, .openBracket, _ => some { r with phase := .bracket }
  | .lineStart, .plain cs, _ => do
    let key ← keyOf? cs
    some { r with phase := .key [key] false false }
  | .lineStart, .quoted s, _ => some { r with phase := .key [s] false false }
  -- headers
  | .bracket, .openBracket, _ => some { r with phase := .header true [] true }
  | .bracket, .blank _, _ => some { r with phase := .header false [] true }
  | .bracket, .plain cs, _ => do
    let key ← keyOf? cs
    some { r with phase := .header false [key] false }
  | .bracket, .quoted s, _ => some { r with phase := .header false [s] false }
  | .header .., .blank _, _ => some r
  | .header double keys true, .plain cs, _ => do
    let key ← keyOf? cs
    some { r with phase := .header double (key :: keys) false }
  | .header double keys true, .quoted s, _ =>
    some { r with phase := .header double (s :: keys) false }
  | .header double keys false, .dot, _ =>
    if keys.length < depthLimit then some { r with phase := .header double keys true } else none
  | .header true keys false, .closeBracket, _ => some { r with phase := .headerClose keys }
  | .header false (key :: path) false, .closeBracket, _ => do
    let define := fun _ ↦ Draft.defineTable key
    let document ← Draft.change .implied define path.reverse .header r.document
    some { r with document, table := path.reverse ++ [key], phase := .lineEnd }
  | .headerClose (key :: path), .closeBracket, _ => do
    let define := fun _ ↦ Draft.defineItem key
    let document ← Draft.change .implied define path.reverse .header r.document
    some { r with document, table := path.reverse ++ [key], phase := .lineEnd }
  -- keys
  | .key .., .blank _, _ => some r
  | .key keys true _, .plain cs, _ => do
    let key ← keyOf? cs
    some { r with phase := .key (key :: keys) false false }
  | .key keys true _, .quoted s, _ => some { r with phase := .key (s :: keys) false false }
  | .key keys false _, .dot, _ =>
    if keys.length < depthLimit then some { r with phase := .key keys true false } else none
  | .key (key :: path) false _, .equals, [] =>
    some { r with dotted := path.reverse, key, phase := .value }
  | .key (key :: path) false _, .equals, .braces entries _ _ :: rest =>
    some { r with frames := .braces entries path.reverse key :: rest, phase := .value }
  | .key [] true true, .closeBrace, .braces _ _ _ :: rest => r.closeFrame rest (.table [])
  -- values
  | .value, .blank _, _ | .value, .lineEnd, .array _ :: _ => some r
  | .value, .quoted s, _ | .value, .block s, _ => r.complete (.text s)
  | .value, .plain cs, _ => some { r with phase := .plain cs }
  | .value, .openBracket, fs =>
    if fs.length < depthLimit then some { r with frames := .array [] :: fs } else none
  | .value, .openBrace, fs =>
    if fs.length < depthLimit then
      some { r with frames := .braces [] [] "" :: fs, phase := .key [] true true }
    else none
  | .value, .closeBracket, .array items :: rest => r.closeFrame rest (.array items.reverse)
  -- after values in brackets
  | .after _, .blank _, _ | .after _, .lineEnd, .array _ :: _ => some r
  | .after v, .comma, .array items :: rest =>
    some { r with frames := .array (v :: items) :: rest, phase := .value }
  | .after v, .closeBracket, .array items :: rest =>
    r.closeFrame rest (.array (v :: items).reverse)
  | .after v, .comma, .braces entries dotted key :: rest => do
    let entries ← Draft.define dotted key v .header entries
    some { r with frames := .braces entries [] "" :: rest, phase := .key [] true false }
  | .after v, .closeBrace, .braces entries dotted key :: rest => do
    let entries ← Draft.define dotted key v .header entries
    r.closeFrame rest (.table (Draft.tomlEntries entries))
  | _, _, _ => none

/-- Read one mark. -/
def step (r : Reading) (m : Mark) : Option Reading :=
  match r.phase, m with
  | .plain cs, .plain more => some { r with phase := .plain (cs ++ more) }
  | .plain cs, .dot => some { r with phase := .plain (cs ++ ['.']) }
  | .plain cs, .blank ' ' => do
    if isDate cs then some { r with phase := .date cs } else r.complete (← plain? cs)
  | .date cs, .plain more => some { r with phase := .plain (cs ++ 'T' :: more) }
  | .plain cs, m | .date cs, m => do
    let v ← plain? cs
    (← r.complete v).stepOther m
  | _, m => r.stepOther m

end Reading

/-! ## Tables that stand for moments -/

/-- The reserved key.  A table that begins with it stands for the moment that its text writes. -/
def momentKey : String := "$__toml_private_datetime"

/-- The value of the reserved key, if a table begins with it. -/
def reserved? : List (String × Toml) → Option Toml
  | [] => none
  | (key, v) :: _ => if key = momentKey then some v else none

/-- The moment that a value of the reserved key writes. -/
def reservedMoment? : Toml → Option Toml
  | .text s => (moment? .quoted s.toList).map .moment
  | _ => none

mutual

/-- The value with its moments in place of the tables that stand for them. -/
def settle? : Toml → Option Toml
  | .array items => (settleItems? items).map .array
  | .table entries =>
    match reserved? entries with
    | some v => reservedMoment? v
    | none => (settleEntries? entries).map .table
  | v => some v

def settleItems? : List Toml → Option (List Toml)
  | [] => some []
  | v :: rest => do some ((← settle? v) :: (← settleItems? rest))

def settleEntries? : List (String × Toml) → Option (List (String × Toml))
  | [] => some []
  | (key, v) :: rest => do some ((key, ← settle? v) :: (← settleEntries? rest))

end

/-- The entries of the document that a text holds.  The document itself cannot be a moment. -/
def parse? (text : String) : Option (List (String × Toml)) := do
  let marks ← scan text
  -- a line end at the end changes nothing
  let r ← (marks ++ [Mark.lineEnd]).foldlM Reading.step ⟨[], [], [], "", [], .lineStart⟩
  let entries := Draft.tomlEntries r.document
  match r.phase, reserved? entries with
  | .lineStart, none => settleEntries? entries
  | _, _ => none

end Taskflow.Toml
