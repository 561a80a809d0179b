import Taskflow.Span

/-!
# Tokens

A text is cut into words, symbols and stray characters.  Blanks, line ends and comments, which run
from `#` to the end of the line, only separate tokens.  The scanner looks at one character at a time
and remembers what it is in the middle of; it never fails, since a character that begins no token
becomes one of its own.
-/

namespace Taskflow.Grammar

/-- What a token is. -/
inductive Lexeme where
  | word (text : String)
  /-- `::` -/
  | declares
  /-- `=` -/
  | equals
  /-- `∘` -/
  | circle
  /-- `×` or `*` -/
  | cross
  /-- `->` or `→` -/
  | arrow
  | openParen
  | closeParen
  | openBracket
  | closeBracket
  | comma
  /-- a character that belongs to no other token -/
  | stray (c : Char)
deriving DecidableEq, Repr

/-- A lexeme and where it stands. -/
structure Token where
  lexeme : Lexeme
  start : Position
  stop : Position
deriving DecidableEq, Repr

namespace Token

def span (t : Token) : Span := ⟨t.start, t.stop⟩

end Token

/-- Letters, digits and the underscore, of ASCII alone, make up words. -/
def isWordChar (c : Char) : Bool := c.isAlphanum || c == '_'

/-- Line ends are a line feed, a carriage return or both. -/
def isLineEnd (c : Char) : Bool := c == '\n' || c == '\r'

def isBlank (c : Char) : Bool := c == ' ' || c == '\t' || isLineEnd c

/-- The token that a single character makes, whatever follows it. -/
def single? : Char → Option Lexeme
  | '=' => some .equals
  | '∘' => some .circle
  | '×' => some .cross
  | '*' => some .cross
  | '→' => some .arrow
  | '(' => some .openParen
  | ')' => some .closeParen
  | '[' => some .openBracket
  | ']' => some .closeBracket
  | ',' => some .comma
  | _ => none

/-- What the scanner is in the middle of. -/
inductive Mode where
  | between
  | comment
  /-- inside a word; its letters so far, the latest first -/
  | word (start : Position) (letters : List Char)
  /-- after one colon -/
  | colon (start : Position)
  /-- after a hyphen -/
  | hyphen (start : Position)
deriving DecidableEq, Repr

namespace Mode

/-- The token that ends at `p` when nothing continues it. -/
def close (p : Position) : Mode → List Token
  | .between => []
  | .comment => []
  | .word start letters => [⟨.word (String.ofList letters.reverse), start, p⟩]
  | .colon start => [⟨.stray ':', start, p⟩]
  | .hyphen start => [⟨.stray '-', start, p⟩]

/-- Read the character at `p` as the first of something new. -/
def open' (p : Position) (c : Char) : List Token × Mode :=
  if isBlank c then ([], .between)
  else if c = '#' then ([], .comment)
  else if isWordChar c then ([], .word p [c])
  else if c = ':' then ([], .colon p)
  else if c = '-' then ([], .hyphen p)
  else ([⟨(single? c).getD (.stray c), p, p.advance c⟩], .between)

/-- Read the character at `p`. -/
def feed (p : Position) (c : Char) : Mode → List Token × Mode
  | .between => open' p c
  | .comment => if isLineEnd c then ([], .between) else ([], .comment)
  | .word start letters =>
    if isWordChar c then ([], .word start (c :: letters))
    else (close p (.word start letters) ++ (open' p c).1, (open' p c).2)
  | .colon start =>
    if c = ':' then ([⟨.declares, start, p.advance c⟩], .between)
    else (close p (.colon start) ++ (open' p c).1, (open' p c).2)
  | .hyphen start =>
    if c = '>' then ([⟨.arrow, start, p.advance c⟩], .between)
    else (close p (.hyphen start) ++ (open' p c).1, (open' p c).2)

end Mode

/-- The tokens of a text that begins at `p` in the given mode. -/
def scan (p : Position) (m : Mode) : List Char → List Token
  | [] => m.close p
  | c :: cs => (m.feed p c).1 ++ scan (p.advance c) (m.feed p c).2 cs

/-- A text as the reader sees it: its tokens and the point after its last character. -/
structure Tokens where
  list : List Token
  stop : Position
deriving DecidableEq, Repr

/-- Cut a text into tokens. -/
def tokenize (text : String) : Tokens :=
  ⟨scan .origin .between text.toList, Position.origin.advanceAll text.toList⟩

end Taskflow.Grammar
