import Taskflow.Digits
import Taskflow.Json
import Taskflow.SortedMap

/-!
# Reading JSON

A text is cut into marks, which are then read with a stack of the brackets that are open.  Entries
of an object are put in the order of their keys, and of two entries with one key the later stays.
A whole number of at most 64 bits is kept as such.  Of any other number the leading digits count, as
many as fit into 64 bits, and they are scaled in double precision.
-/

namespace Taskflow.Json

/-- A part of a JSON text. -/
inductive Mark where
  | openBrace
  | closeBrace
  | openBracket
  | closeBracket
  | comma
  | colon
  | text (s : String)
  /-- a run of characters that can only be a number or one of the three constants -/
  | atom (cs : List Char)
deriving DecidableEq, Repr

/-- What the scanner is in the middle of; characters read so far are kept the latest first. -/
inductive ScanMode where
  | between
  | atom (cs : List Char)
  | text (cs : List Char)
  /-- after a backslash in a text -/
  | escape (cs : List Char)
  /-- in a code unit of four hexadecimal digits, some of which are read; `high` is the first half of
  a pair -/
  | unit (cs : List Char) (high : Option Nat) (count value : Nat)
  /-- after the first half of a pair, where the second has to follow -/
  | half (cs : List Char) (high : Nat)
  /-- there, after a backslash -/
  | halfEscape (cs : List Char) (high : Nat)
deriving DecidableEq, Repr

/-- The value of a hexadecimal digit. -/
def hexValue? (c : Char) : Option Nat :=
  if c.isDigit then some (c.toNat - 48)
  else if 'a' ≤ c ∧ c ≤ 'f' then some (c.toNat - 87)
  else if 'A' ≤ c ∧ c ≤ 'F' then some (c.toNat - 55)
  else none

/-- What follows once a code unit is complete. -/
def endUnit (cs : List Char) (high : Option Nat) (value : Nat) : Option ScanMode :=
  match high with
  | none =>
    if 0xD800 ≤ value ∧ value < 0xDC00 then some (.half cs value)
    else if 0xDC00 ≤ value ∧ value < 0xE000 then none
    else some (.text (Char.ofNat value :: cs))
  | some h =>
    if 0xDC00 ≤ value ∧ value < 0xE000 then
      some (.text (Char.ofNat (0x10000 + (h - 0xD800) * 0x400 + (value - 0xDC00)) :: cs))
    else none

/-- The character that a short escape stands for. -/
def shortEscape? : Char → Option Char
  | '"' => some '"'
  | '\\' => some '\\'
  | '/' => some '/'
  | 'b' => some '\x08'
  | 'f' => some '\x0c'
  | 'n' => some '\n'
  | 'r' => some '\r'
  | 't' => some '\t'
  | _ => none

/-- The mark that a single character makes. -/
def mark? : Char → Option Mark
  | '\x7b' => some .openBrace
  | '\x7d' => some .closeBrace
  | '[' => some .openBracket
  | ']' => some .closeBracket
  | ',' => some .comma
  | ':' => some .colon
  | _ => none

/-- Read a character outside texts; `before` is the atom that ends here, if any. -/
def feedOutside (before : List Mark) (c : Char) : Option (List Mark × ScanMode) :=
  if c = ' ' ∨ c = '\t' ∨ c = '\n' ∨ c = '\r' then some (before, .between)
  else if c = '"' then some (before, .text [])
  else match mark? c with
    | some m => some (before ++ [m], .between)
    | none => if before.isEmpty then some ([], .atom [c]) else none

/-- Whether a character continues an atom. -/
def continuesAtom (c : Char) : Bool := c.isAlphanum || c == '-' || c == '+' || c == '.'

/-- Read one character. -/
def feed (c : Char) : ScanMode → Option (List Mark × ScanMode)
  | .between => feedOutside [] c
  | .atom cs =>
    if continuesAtom c then some ([], .atom (c :: cs)) else feedOutside [.atom cs.reverse] c
  | .text cs =>
    if c = '"' then some ([.text (String.ofList cs.reverse)], .between)
    else if c = '\\' then some ([], .escape cs)
    else if c.toNat < 32 then none
    else some ([], .text (c :: cs))
  | .escape cs =>
    if c = 'u' then some ([], .unit cs none 0 0)
    else (shortEscape? c).map fun d ↦ ([], .text (d :: cs))
  | .unit cs high count value =>
    match hexValue? c with
    | none => none
    | some d =>
      if count < 3 then some ([], .unit cs high (count + 1) (16 * value + d))
      else (endUnit cs high (16 * value + d)).map ([], ·)
  | .half cs high => if c = '\\' then some ([], .halfEscape cs high) else none
  | .halfEscape cs high => if c = 'u' then some ([], .unit cs (some high) 0 0) else none

/-- The marks of a text, which have to end outside texts. -/
def scan : ScanMode → List Char → Option (List Mark)
  | .between, [] => some []
  | .atom cs, [] => some [.atom cs.reverse]
  | _, [] => none
  | mode, c :: rest => do
    let (marks, mode) ← feed c mode
    let others ← scan mode rest
    some (marks ++ others)

/-- The exponent at the end of a number, if it is well formed. -/
def readExponent : List Char → Option Int
  | [] => some 0
  | e :: rest =>
    if e = 'e' ∨ e = 'E' then Digits.int? rest else none

/-- Take digits as long as the number that they write behind `n` fits into 64 bits; that number, and
the digits that are left. -/
def leading (n : Nat) : List Char → Nat × List Char
  | [] => (n, [])
  | c :: rest =>
    let more := 10 * n + (c.toNat - 48)
    if more < Digits.countLimit then leading more rest else (n, c :: rest)

/-- The number that an atom writes. -/
def readNumber (cs : List Char) : Option Json :=
  let (negative, unsigned) := match cs with
    | '-' :: rest => (true, rest)
    | rest => (false, rest)
  let whole := unsigned.takeWhile Char.isDigit
  let rest := unsigned.dropWhile Char.isDigit
  if whole.isEmpty || (whole.head? == some '0' && 1 < whole.length) then none
  else
    let (fraction, tail, pointed) := match rest with
      | '.' :: more => (more.takeWhile Char.isDigit, more.dropWhile Char.isDigit, true)
      | more => ([], more, false)
    if pointed && fraction.isEmpty then none
    else
      match readExponent tail with
      | none => none
      | some e =>
        let n := Digits.value (whole ++ fraction)
        let value : Int := if negative then -n else n
        if rest.isEmpty && !(negative && n == 0) && -9223372036854775808 ≤ value
            && value < Digits.countLimit then
          some (.int value)
        else
          let (n, left) := leading 0 whole
          let (n, dropped) := leading n fraction
          let places : Int := (left.length : Int) - (fraction.length - dropped.length)
          (Decimal.scaled? negative n (e + places)).map .real

/-- The document that an atom writes. -/
def readAtom (cs : List Char) : Option Json :=
  if cs = ['n', 'u', 'l', 'l'] then some .null
  else if cs = ['t', 'r', 'u', 'e'] then some (.bool true)
  else if cs = ['f', 'a', 'l', 's', 'e'] then some (.bool false)
  else readNumber cs

/-- A bracket that is open and what it holds so far; items of an array the latest first. -/
inductive Frame where
  | array (items : List Json)
  | object (entries : List (String × Json)) (key : String)

/-- Where the reader stands. -/
inductive Phase where
  /-- before a value; `first` right after an opening bracket -/
  | value (first : Bool)
  /-- before a key; `first` right after an opening brace -/
  | key (entries : List (String × Json)) (first : Bool)
  | colon (entries : List (String × Json)) (key : String)
  /-- after a value, before what separates or closes -/
  | after (j : Json)

/-- The open brackets, the innermost first, and the place inside the innermost. -/
structure Reading where
  frames : List Frame
  phase : Phase

/-- Read one mark; at most `depth` brackets may be open. -/
def step (depth : Nat) (r : Reading) (m : Mark) : Option Reading :=
  match r.phase, m, r.frames with
  | .value _, .text s, fs => some ⟨fs, .after (.str s)⟩
  | .value _, .atom cs, fs => (readAtom cs).map (⟨fs, .after ·⟩)
  | .value _, .openBracket, fs =>
    if fs.length < depth then some ⟨.array [] :: fs, .value true⟩ else none
  | .value _, .openBrace, fs =>
    if fs.length < depth then some ⟨.object [] "" :: fs, .key [] true⟩ else none
  | .value true, .closeBracket, .array [] :: fs => some ⟨fs, .after (.arr [])⟩
  | .key es _, .text s, fs => some ⟨fs, .colon es s⟩
  | .key _ true, .closeBrace, .object _ _ :: fs => some ⟨fs, .after (.obj [])⟩
  | .colon es k, .colon, .object _ _ :: fs => some ⟨.object es k :: fs, .value false⟩
  | .after j, .comma, .array items :: fs => some ⟨.array (j :: items) :: fs, .value false⟩
  | .after j, .closeBracket, .array items :: fs => some ⟨fs, .after (.arr (j :: items).reverse)⟩
  | .after j, .comma, .object es k :: fs =>
    some ⟨.object [] "" :: fs, .key (SortedMap.insertEntry k j es) false⟩
  | .after j, .closeBrace, .object es k :: fs =>
    some ⟨fs, .after (.obj (SortedMap.insertEntry k j es))⟩
  | _, _, _ => none

/-- The document that a text holds, with at most `depth` brackets inside each other. -/
def parseWithin (depth : Nat) (text : String) : Option Json := do
  let marks ← scan .between text.toList
  match ← marks.foldlM (step depth) ⟨[], .value false⟩ with
  | ⟨[], .after j⟩ => some j
  | _ => none

/-- The document that a text holds. -/
def parse? (text : String) : Option Json := parseWithin 127 text

end Taskflow.Json
