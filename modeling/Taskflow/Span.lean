/-!
# Places in a source text

A `Position` is a point between two characters of a text and a `Span` is the stretch between two
positions.  Offsets count bytes of the UTF-8 encoding; lines and columns count from zero, columns
count characters, and only a line feed ends a line.
-/

namespace Taskflow

/-- A point in a text: its byte offset, its line and its column in that line. -/
structure Position where
  offset : Nat
  line : Nat
  column : Nat
deriving DecidableEq, Repr

namespace Position

/-- The point before the first character. -/
def origin : Position := ⟨0, 0, 0⟩

/-- The point after a character that starts at `p`. -/
def advance (p : Position) (c : Char) : Position :=
  if c = '\n' then ⟨p.offset + c.utf8Size, p.line + 1, 0⟩
  else ⟨p.offset + c.utf8Size, p.line, p.column + 1⟩

/-- The point after all characters of `cs`, the first of which starts at `p`. -/
def advanceAll (p : Position) (cs : List Char) : Position := cs.foldl advance p

@[simp] theorem advanceAll_nil (p : Position) : p.advanceAll [] = p := rfl

@[simp] theorem advanceAll_cons (p : Position) (c : Char) (cs : List Char) :
    p.advanceAll (c :: cs) = (p.advance c).advanceAll cs := rfl

theorem advanceAll_append (p : Position) (cs ds : List Char) :
    p.advanceAll (cs ++ ds) = (p.advanceAll cs).advanceAll ds := List.foldl_append

@[simp] theorem offset_advance (p : Position) (c : Char) :
    (p.advance c).offset = p.offset + c.utf8Size := by
  unfold advance
  split <;> rfl

/-- `line:column` as people count them, from one. -/
def render (p : Position) : String := s!"{p.line + 1}:{p.column + 1}"

end Position

/-- The stretch of text from `start` to `stop`. -/
structure Span where
  start : Position
  stop : Position
deriving DecidableEq, Repr

namespace Span

/-- The span of something that came from no text. -/
def nowhere : Span := ⟨.origin, .origin⟩

/-- The empty span at `p`. -/
def point (p : Position) : Span := ⟨p, p⟩

/-- The smallest span that covers both: it begins where the earlier one begins and ends where the
later one ends.  Of two that begin or end together the first one decides. -/
def merge (a b : Span) : Span where
  start := if a.start.offset ≤ b.start.offset then a.start else b.start
  stop := if b.stop.offset ≤ a.stop.offset then a.stop else b.stop

@[simp] theorem offset_start_merge (a b : Span) :
    (a.merge b).start.offset = min a.start.offset b.start.offset := by
  simp only [merge]
  split <;> omega

@[simp] theorem offset_stop_merge (a b : Span) :
    (a.merge b).stop.offset = max a.stop.offset b.stop.offset := by
  simp only [merge]
  split <;> omega

/-- A span is shown by where it begins. -/
def render (s : Span) : String := s.start.render

/-- Source order: by beginning, then by end. -/
def notAfter (a b : Span) : Bool :=
  a.start.offset < b.start.offset ||
    (a.start.offset == b.start.offset && a.stop.offset ≤ b.stop.offset)

end Span

end Taskflow
