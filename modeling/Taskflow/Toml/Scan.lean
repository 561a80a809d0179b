import Taskflow.Toml

/-!
# The marks of a TOML text

A text is cut into quoted texts, runs of plain characters, single marks, blanks and line ends;
comments are dropped.  Every character is looked at once, in order.
-/

namespace Taskflow.Toml

/-- A part of a TOML text. -/
inductive Mark where
  | lineEnd
  /-- a space or a tab -/
  | blank (c : Char)
  | equals
  | dot
  | comma
  | openBracket
  | closeBracket
  | openBrace
  | closeBrace
  /-- a run of characters that can stand in a plain key or in a plain value -/
  | plain (cs : List Char)
  /-- a quoted text on one line, which can be a key too -/
  | quoted (s : String)
  /-- a quoted text over several lines -/
  | block (s : String)
deriving DecidableEq, Repr

/-- What the scanner is in the middle of; characters read so far are kept the latest first. -/
inductive ScanMode where
  | between
  | plain (cs : List Char)
  | comment
  /-- after an opening quotation mark -/
  | opened (mark : Char)
  /-- after two of them: an empty text, unless a third one follows -/
  | openedTwice (mark : Char)
  /-- right after three of them, where a line end does not count -/
  | openedBlock (mark : Char)
  /-- in a quoted text; `run` counts the quotation marks read last -/
  | text (q : Quotes) (run : Nat) (cs : List Char)
  /-- after a backslash -/
  | escape (q : Quotes) (cs : List Char)
  /-- in a code point, of which `missing` hexadecimal digits are to come -/
  | code (q : Quotes) (missing value : Nat) (cs : List Char)
  /-- after a backslash at the end of a line; blanks and line ends are skipped -/
  | join (lineEnded : Bool) (cs : List Char)
deriving DecidableEq, Repr

/-- Whether a character is allowed in comments and between quotes that do not span lines. -/
def isPlainText (c : Char) : Bool := c == '\t' || (32 ≤ c.toNat && c.toNat != 127)

/-- Whether a character can stand in a plain key or in a plain value. -/
def isPlain (c : Char) : Bool := c.isAlphanum || c == '_' || c == '-' || c == '+' || c == ':'

/-- The mark that a single character makes. -/
def mark? : Char → Option Mark
  | '\n' => some .lineEnd
  | ' ' => some (.blank ' ')
  | '\t' => some (.blank '\t')
  | '=' => some .equals
  | '.' => some .dot
  | ',' => some .comma
  | '[' => some .openBracket
  | ']' => some .closeBracket
  | '\x7b' => some .openBrace
  | '\x7d' => some .closeBrace
  | _ => none

/-- Read a character outside quotes and comments, after the marks `before`. -/
def feedBetween (before : List Mark) (c : Char) : Option (List Mark × ScanMode) :=
  if c = '#' then some (before, .comment)
  else if c = '"' ∨ c = '\'' then some (before, .opened c)
  else if isPlain c then some (before, .plain [c])
  else (mark? c).map fun m ↦ (before ++ [m], .between)

/-- The mark of a quoted text. -/
def Quotes.close (q : Quotes) (cs : List Char) : Mark :=
  let s := String.ofList cs.reverse
  if q.triple then .block s else .quoted s

/-- The character that a short escape stands for. -/
def shortEscape? : Char → Option Char
  | 'b' => some '\x08'
  | 't' => some '\t'
  | 'n' => some '\n'
  | 'f' => some '\x0c'
  | 'r' => some '\r'
  | '"' => some '"'
  | '\\' => some '\\'
  | _ => none

/-- The value of a hexadecimal digit. -/
def hexValue? (c : Char) : Option Nat :=
  if c.isDigit then some (c.toNat - 48)
  else if 'a' ≤ c ∧ c ≤ 'f' then some (c.toNat - 87)
  else if 'A' ≤ c ∧ c ≤ 'F' then some (c.toNat - 55)
  else none

/-- Read a character inside quotes. -/
def feedText (q : Quotes) (cs : List Char) (c : Char) : Option (List Mark × ScanMode) :=
  if c = '\\' ∧ q.escapes then some ([], .escape q cs)
  else if isPlainText c ∨ (c = '\n' ∧ q.triple) then some ([], .text q 0 (c :: cs))
  else none

/-- Read one character. -/
def feed (c : Char) : ScanMode → Option (List Mark × ScanMode)
  | .between => feedBetween [] c
  | .plain cs =>
    if isPlain c then some ([], .plain (c :: cs)) else feedBetween [.plain cs.reverse] c
  | .comment =>
    if c = '\n' then some ([.lineEnd], .between)
    else if isPlainText c then some ([], .comment)
    else none
  | .opened m => if c = m then some ([], .openedTwice m) else feedText ⟨m, false⟩ [] c
  | .openedTwice m => if c = m then some ([], .openedBlock m) else feedBetween [.quoted ""] c
  | .openedBlock m =>
    if c = '\n' then some ([], .text ⟨m, true⟩ 0 [])
    else if c = m then some ([], .text ⟨m, true⟩ 1 [])
    else feedText ⟨m, true⟩ [] c
  | .text q run cs =>
    if c = q.mark then
      if q.triple then if run < 5 then some ([], .text q (run + 1) cs) else none
      else some ([q.close cs], .between)
    else if run < 3 then feedText q (List.replicate run q.mark ++ cs) c
    -- three marks end a text, and one or two before them belong to it
    else feedBetween [q.close (List.replicate (run - 3) q.mark ++ cs)] c
  | .escape q cs =>
    if c = 'u' then some ([], .code q 4 0 cs)
    else if c = 'U' then some ([], .code q 8 0 cs)
    else if q.triple ∧ (c = ' ' ∨ c = '\t') then some ([], .join false cs)
    else if q.triple ∧ c = '\n' then some ([], .join true cs)
    else (shortEscape? c).map fun d ↦ ([], .text q 0 (d :: cs))
  | .code q missing value cs =>
    match hexValue? c with
    | none => none
    | some d =>
      let value := 16 * value + d
      if 1 < missing then some ([], .code q (missing - 1) value cs)
      else if value.isValidChar then some ([], .text q 0 (Char.ofNat value :: cs))
      else none
  | .join lineEnded cs =>
    if c = '\n' then some ([], .join true cs)
    else if c = ' ' ∨ c = '\t' then some ([], .join lineEnded cs)
    else if !lineEnded then none
    else if c = '"' then some ([], .text ⟨'"', true⟩ 1 cs)
    else feedText ⟨'"', true⟩ cs c

/-- The marks at the end of a text. -/
def finish : ScanMode → Option (List Mark)
  | .between | .comment => some []
  | .plain cs => some [.plain cs.reverse]
  | .openedTwice _ => some [.quoted ""]
  | .text q run cs =>
    if q.triple ∧ 3 ≤ run then some [q.close (List.replicate (run - 3) q.mark ++ cs)] else none
  | _ => none

/-- The marks of a text from a mode on. -/
def scanFrom : ScanMode → List Char → Option (List Mark)
  | mode, [] => finish mode
  | mode, c :: rest => do
    let (marks, mode) ← feed c mode
    let others ← scanFrom mode rest
    some (marks ++ others)

/-- A carriage return in front of a line feed belongs to the line end. -/
def joinLineEnds : List Char → List Char
  | '\r' :: '\n' :: rest => '\n' :: joinLineEnds rest
  | c :: rest => c :: joinLineEnds rest
  | [] => []

/-- The marks of a text. -/
def scan (text : String) : Option (List Mark) :=
  let cs := match text.toList with
    | '\ufeff' :: rest => rest
    | cs => cs
  scanFrom .between (joinLineEnds cs)

end Taskflow.Toml
