import Taskflow.Proofs.Grammar.Cutting

/-!
# Positions in a text

A position holds an offset, a line and a column.  The scanner counts all three as it goes on;
`lineColumn` counts the lines and columns in front of an offset from the beginning of the text.
Every position that the scanner comes by is one between two characters, and the two agree there
(`Position.In.accurate`).

The tokens of a text stand where it says so (`tokenize_standing`): each begins and ends in the text,
and a word is what stands between.
-/

namespace Taskflow

/-! ## Lines and columns -/

/-- The line and the column at an offset, for characters the first of which has the given index,
line and column.  Only a line feed ends a line. -/
def lineColumnFrom (index line column : Nat) : List Char → Nat → Nat × Nat
  | [], _ => (line, column)
  | c :: cs, offset =>
    if offset ≤ index then (line, column)
    else if c = '\n' then lineColumnFrom (index + c.utf8Size) (line + 1) 0 cs offset
    else lineColumnFrom (index + c.utf8Size) line (column + 1) cs offset

/-- The line and the column at an offset of a text, counted from zero. -/
def lineColumn (text : String) (offset : Nat) : Nat × Nat :=
  lineColumnFrom 0 0 0 text.toList offset

theorem lineColumnFrom_advanceAll (p : Position) (front back : List Char) :
    lineColumnFrom p.offset p.line p.column (front ++ back) (p.advanceAll front).offset =
      ((p.advanceAll front).line, (p.advanceAll front).column) := by
  induction front generalizing p with
  | nil =>
    cases back with
    | nil => rfl
    | cons c back => exact if_pos (Nat.le_refl _)
  | cons c front ih =>
    have further : p.offset < (p.advanceAll (c :: front)).offset :=
      Nat.lt_of_lt_of_le (Grammar.Mode.offset_lt_advance p c)
        (Grammar.offset_le_advanceAll front _)
    have rest := ih (p.advance c)
    rw [List.cons_append, lineColumnFrom, if_neg (Nat.not_le_of_lt further)]
    by_cases newline : c = '\n'
    · rw [if_pos newline]
      simpa [Position.advance, newline] using rest
    · rw [if_neg newline]
      simpa [Position.advance, newline] using rest

namespace Position

theorem offset_advanceAll (p : Position) (cs : List Char) :
    (p.advanceAll cs).offset = p.offset + (String.ofList cs).utf8ByteSize := by
  induction cs generalizing p with
  | nil => rfl
  | cons c cs ih =>
    rw [advanceAll_cons, ih, offset_advance, String.ofList_cons, String.utf8ByteSize_append,
      String.utf8ByteSize_singleton, Nat.add_assoc]

/-- Whether a position is one between two characters of a text. -/
def In (text : String) (p : Position) : Prop :=
  ∃ front back, text.toList = front ++ back ∧ p = origin.advanceAll front

/-- Whether a position lies on a boundary between characters of a text, and its line and column are
those of its offset. -/
structure Accurate (text : String) (p : Position) : Prop where
  boundary : (String.Pos.Raw.mk p.offset).IsValid text
  lineColumn : (p.line, p.column) = lineColumn text p.offset

theorem In.accurate {text : String} {p : Position} (h : p.In text) : p.Accurate text := by
  obtain ⟨front, back, whole, rfl⟩ := h
  constructor
  · refine String.Pos.Raw.isValid_iff_exists_append.2
      ⟨String.ofList front, String.ofList back, ?_, ?_⟩
    · rw [← String.ofList_append, ← whole, String.ofList_toList]
    · rw [offset_advanceAll]
      exact congrArg String.Pos.Raw.mk (Nat.zero_add _)
  · rw [Taskflow.lineColumn, whole]
    exact (lineColumnFrom_advanceAll origin front back).symm

theorem Accurate.le {text : String} {p : Position} (h : p.Accurate text) :
    p.offset ≤ text.utf8ByteSize :=
  h.boundary.le_rawEndPos

/-- A position in a text is not behind its last one. -/
theorem In.offset_le {text : String} {p : Position} (h : p.In text) :
    p.offset ≤ (origin.advanceAll text.toList).offset := by
  obtain ⟨front, back, whole, rfl⟩ := h
  rw [whole, advanceAll_append]
  exact Grammar.offset_le_advanceAll back _

theorem in_stop (text : String) : (origin.advanceAll text.toList).In text :=
  ⟨text.toList, [], (List.append_nil _).symm, rfl⟩

end Position

/-- The line and the column behind some characters, from those in front of them, where a carriage
return and a line feed together end a line as well as a line feed alone. -/
def countLines (line column : Nat) : List Char → Nat × Nat
  | [] => (line, column)
  | '\r' :: '\n' :: cs => countLines (line + 1) 1 cs
  | '\n' :: cs => countLines (line + 1) 1 cs
  | _ :: cs => countLines line (column + 1) cs

/-- A carriage return in front of a line feed changes nothing, since the column begins anew. -/
theorem countLines_eq {line column : Nat} (cs : List Char) (p : Position)
    (sameLine : line = p.line + 1) (sameColumn : column = p.column + 1) :
    countLines line column cs = ((p.advanceAll cs).line + 1, (p.advanceAll cs).column + 1) := by
  fun_induction countLines line column cs generalizing p with
  | case1 => rw [sameLine, sameColumn, Position.advanceAll_nil]
  | case2 line column cs ih =>
    exact ih ((p.advance '\r').advance '\n') (congrArg (· + 1) sameLine) rfl
  | case3 line column cs ih => exact ih (p.advance '\n') (congrArg (· + 1) sameLine) rfl
  | case4 line column c cs _ other ih =>
    refine ih (p.advance c) ?_ ?_
    · rw [sameLine, Position.advance, if_neg other]
    · rw [sameColumn, Position.advance, if_neg other]

/-- Whether a span covers exactly the text `s` at one of its places in a text. -/
def Span.Covers (text s : String) (span : Span) : Prop :=
  ∃ front back, text = front ++ s ++ back ∧ span.start.offset = front.utf8ByteSize ∧
    span.stop.offset = (front ++ s).utf8ByteSize

namespace Grammar

/-! ## Tokens -/

/-- Whether a token stands where it says it does in a text that begins with `cs`. -/
def Token.Standing (cs : List Char) (t : Token) : Prop :=
  ∃ front written back, cs = front ++ written ++ back ∧
    t.start = Position.origin.advanceAll front ∧
    t.stop = Position.origin.advanceAll (front ++ written) ∧
    ∀ text, t.lexeme = .word text → written = text.toList

namespace Token.Standing

variable {cs : List Char} {t : Token}

theorem append (h : t.Standing cs) (ds : List Char) : t.Standing (cs ++ ds) := by
  obtain ⟨front, written, back, rfl, rest⟩ := h
  exact ⟨front, written, back ++ ds, by simp, rest⟩

/-- A token that ends the text so far. -/
theorem of_last {front written : List Char} {l : Lexeme}
    (word : ∀ text, l = .word text → written = text.toList) :
    Standing (front ++ written) ⟨l, Position.origin.advanceAll front,
      Position.origin.advanceAll (front ++ written)⟩ :=
  ⟨front, written, [], (List.append_nil _).symm, rfl, rfl, word⟩

variable {text : String} (h : t.Standing text.toList)
include h

theorem start_in : t.start.In text := by
  obtain ⟨front, written, back, whole, start, -⟩ := h
  exact ⟨front, written ++ back, by rw [whole, List.append_assoc], start⟩

theorem stop_in : t.stop.In text := by
  obtain ⟨front, written, back, whole, -, stop, -⟩ := h
  exact ⟨front ++ written, back, whole, stop⟩

/-- A word is what stands between the start and the stop of its token. -/
theorem covers {name : String} (word : t.lexeme = .word name) : t.span.Covers text name := by
  obtain ⟨front, written, back, whole, start, stop, same⟩ := h
  obtain rfl := same name word
  have bytes (cs : List Char) :
      (Position.origin.advanceAll cs).offset = (String.ofList cs).utf8ByteSize :=
    (Position.offset_advanceAll _ cs).trans (Nat.zero_add _)
  refine ⟨String.ofList front, String.ofList back, ?_, ?_, ?_⟩
  · rw [← String.toList_inj]
    simpa using whole
  · rw [span, start, bytes]
  · rw [span, stop, bytes, String.ofList_append, String.ofList_toList]

end Token.Standing

namespace Mode

/-- Whether what the scanner is in the middle of behind the characters `done` are the last of
them. -/
def Behind (done : List Char) : Mode → Prop
  | .between | .comment => True
  | .word start letters =>
    ∃ front, done = front ++ letters.reverse ∧ start = Position.origin.advanceAll front
  | .colon start => ∃ front, done = front ++ [':'] ∧ start = Position.origin.advanceAll front
  | .hyphen start => ∃ front, done = front ++ ['-'] ∧ start = Position.origin.advanceAll front

variable {done : List Char} {m : Mode}

theorem Behind.close (h : m.Behind done) :
    ∀ t ∈ m.close (Position.origin.advanceAll done), t.Standing done := by
  cases m with
  | between | comment => nofun
  | word start letters =>
    obtain ⟨front, rfl, rfl⟩ := h
    refine List.forall_mem_singleton.2 (.of_last ?_)
    rintro text ⟨⟩
    rw [String.toList_ofList]
  | colon start | hyphen start =>
    obtain ⟨front, rfl, rfl⟩ := h
    exact List.forall_mem_singleton.2 (.of_last nofun)

theorem advanceAll_concat (p : Position) (done : List Char) (c : Char) :
    p.advanceAll (done ++ [c]) = (p.advanceAll done).advance c :=
  p.advanceAll_append done [c]

/-- A character begins something new, or is a token by itself. -/
theorem behind_open' (done : List Char) (c : Char) :
    (open' (Position.origin.advanceAll done) c).2.Behind (done ++ [c]) ∧
      ∀ t ∈ (open' (Position.origin.advanceAll done) c).1, t.Standing (done ++ [c]) := by
  unfold open'
  split
  · exact ⟨trivial, nofun⟩
  split
  · exact ⟨trivial, nofun⟩
  split
  · exact ⟨⟨done, rfl, rfl⟩, nofun⟩
  split
  next colon => exact ⟨⟨done, by rw [colon], rfl⟩, nofun⟩
  split
  next hyphen => exact ⟨⟨done, by rw [hyphen], rfl⟩, nofun⟩
  · refine ⟨trivial, List.forall_mem_singleton.2 ?_⟩
    rw [← advanceAll_concat]
    refine .of_last fun text same ↦ ?_
    cases symbol : single? c with
    | none =>
      rw [symbol] at same
      cases same
    | some l =>
      rw [symbol] at same
      exact (single?_ne_word c text (symbol.trans (congrArg some same))).elim

theorem Behind.feed (h : m.Behind done) (c : Char) :
    (m.feed (Position.origin.advanceAll done) c).2.Behind (done ++ [c]) ∧
      ∀ t ∈ (m.feed (Position.origin.advanceAll done) c).1, t.Standing (done ++ [c]) := by
  obtain ⟨opened, opens⟩ := behind_open' done c
  -- what is closed stands in front of what the character opens
  have closing : ∀ t ∈ m.close (Position.origin.advanceAll done) ++
      (open' (Position.origin.advanceAll done) c).1, t.Standing (done ++ [c]) := by
    intro t ht
    rcases List.mem_append.1 ht with ht | ht
    · exact (h.close t ht).append [c]
    · exact opens t ht
  cases m with
  | between => exact ⟨opened, opens⟩
  | comment =>
    rw [Mode.feed]
    split <;> exact ⟨trivial, List.forall_mem_nil _⟩
  | word start letters =>
    rw [Mode.feed]
    split
    · obtain ⟨front, rfl, rfl⟩ := h
      exact ⟨⟨front, by rw [List.reverse_cons, List.append_assoc], rfl⟩, List.forall_mem_nil _⟩
    · exact ⟨opened, closing⟩
  | colon start | hyphen start =>
    rw [Mode.feed]
    split
    next second =>
      obtain ⟨front, rfl, rfl⟩ := h
      refine ⟨trivial, List.forall_mem_singleton.2 ?_⟩
      rw [← advanceAll_concat, List.append_assoc]
      refine .of_last ?_
      rintro text ⟨⟩
    · exact ⟨opened, closing⟩

end Mode

theorem scan_standing {done : List Char} {m : Mode} (cs : List Char) (h : m.Behind done) :
    ∀ t ∈ scan (Position.origin.advanceAll done) m cs, t.Standing (done ++ cs) := by
  induction cs generalizing done m with
  | nil =>
    rw [List.append_nil]
    exact h.close
  | cons c cs ih =>
    obtain ⟨later, tokens⟩ := h.feed c
    have rest := ih later
    rw [List.append_assoc, Mode.advanceAll_concat] at rest
    intro t ht
    rcases List.mem_append.1 ht with ht | ht
    · have whole := (tokens t ht).append cs
      rwa [List.append_assoc] at whole
    · exact rest t ht

/-- Every token of a text stands where it says it does. -/
theorem tokenize_standing (text : String) :
    ∀ t ∈ (tokenize text).list, t.Standing text.toList := by
  have between : Mode.between.Behind [] := trivial
  exact scan_standing text.toList between

end Grammar

end Taskflow
