import Taskflow.Proofs.Grammar.Moves

/-!
# Words in the order of the text

Tokens are cut from a text from left to right, so they do not overlap (`tokenize_inOrder`).  The
reader holds every word of an expression it has read until the item that the word belongs to is
complete, always in the order in which it read them: a token adds at most its own word to
`Reading.words`, at the end.  So the words in the expressions of a program follow each other in
the text (`read_words_placed`).
-/

namespace Taskflow.Grammar

/-! ## Tokens -/

/-- Tokens that begin at `lo` or later, are not empty and do not overlap. -/
def InOrder : Nat → List Token → Prop
  | _, [] => True
  | lo, t :: rest =>
    lo ≤ t.start.offset ∧ t.start.offset < t.stop.offset ∧ InOrder t.stop.offset rest

namespace Mode

/-- What the scanner is in the middle of at `p` has begun at `lo` or later. -/
def Since (lo : Nat) (p : Position) : Mode → Prop
  | .between | .comment => lo ≤ p.offset
  | .word start _ | .colon start | .hyphen start => lo ≤ start.offset ∧ start.offset < p.offset

/-- What is in progress at the end of the text is the last token. -/
theorem Since.inOrder_close {lo : Nat} {p : Position} {m : Mode} (h : m.Since lo p) :
    InOrder lo (m.close p) := by
  cases m with
  | between | comment => trivial
  | word | colon | hyphen => exact ⟨h.1, h.2, trivial⟩

theorem offset_lt_advance (p : Position) (c : Char) : p.offset < (p.advance c).offset := by
  rw [Position.offset_advance]
  exact Nat.lt_add_of_pos_right c.utf8Size_pos

/-- A character that begins something new puts its token, if it makes one by itself, in front of
what comes later. -/
theorem open_spec {lo : Nat} {p : Position} (c : Char) (h : lo ≤ p.offset) :
    ∃ lo', (open' p c).2.Since lo' (p.advance c) ∧
      ∀ rest, InOrder lo' rest → InOrder lo ((open' p c).1 ++ rest) := by
  have later := offset_lt_advance p c
  unfold open'
  split
  · exact ⟨lo, Nat.le_trans h (Nat.le_of_lt later), fun _ ordered ↦ ordered⟩
  split
  · exact ⟨lo, Nat.le_trans h (Nat.le_of_lt later), fun _ ordered ↦ ordered⟩
  split
  · exact ⟨lo, ⟨h, later⟩, fun _ ordered ↦ ordered⟩
  split
  · exact ⟨lo, ⟨h, later⟩, fun _ ordered ↦ ordered⟩
  split
  · exact ⟨lo, ⟨h, later⟩, fun _ ordered ↦ ordered⟩
  · exact ⟨(p.advance c).offset, Nat.le_refl _, fun _ ordered ↦ ⟨h, later, ordered⟩⟩

/-- So does every character. -/
theorem Since.feed {lo : Nat} {p : Position} {m : Mode} (c : Char) (h : m.Since lo p) :
    ∃ lo', (m.feed p c).2.Since lo' (p.advance c) ∧
      ∀ rest, InOrder lo' rest → InOrder lo ((m.feed p c).1 ++ rest) := by
  have later := offset_lt_advance p c
  cases m with
  | between => exact open_spec c h
  | comment =>
    rw [Mode.feed]
    split <;> exact ⟨lo, Nat.le_trans h (Nat.le_of_lt later), fun _ ordered ↦ ordered⟩
  | word start letters =>
    rw [Mode.feed]
    split
    · exact ⟨lo, ⟨h.1, Nat.lt_trans h.2 later⟩, fun _ ordered ↦ ordered⟩
    · obtain ⟨lo', since, ordered⟩ := open_spec c (Nat.le_refl p.offset)
      exact ⟨lo', since, fun rest hr ↦ ⟨h.1, h.2, ordered rest hr⟩⟩
  | colon start =>
    rw [Mode.feed]
    split
    · exact ⟨_, Nat.le_refl _, fun _ ordered ↦ ⟨h.1, Nat.lt_trans h.2 later, ordered⟩⟩
    · obtain ⟨lo', since, ordered⟩ := open_spec c (Nat.le_refl p.offset)
      exact ⟨lo', since, fun rest hr ↦ ⟨h.1, h.2, ordered rest hr⟩⟩
  | hyphen start =>
    rw [Mode.feed]
    split
    · exact ⟨_, Nat.le_refl _, fun _ ordered ↦ ⟨h.1, Nat.lt_trans h.2 later, ordered⟩⟩
    · obtain ⟨lo', since, ordered⟩ := open_spec c (Nat.le_refl p.offset)
      exact ⟨lo', since, fun rest hr ↦ ⟨h.1, h.2, ordered rest hr⟩⟩

end Mode

/-- The scanner yields tokens in order, whatever it is in the middle of. -/
theorem scan_inOrder {lo : Nat} {p : Position} {m : Mode} (cs : List Char) (h : m.Since lo p) :
    InOrder lo (scan p m cs) := by
  induction cs generalizing lo p m with
  | nil => exact h.inOrder_close
  | cons c cs ih =>
    obtain ⟨lo', since, ordered⟩ := h.feed c
    exact ordered _ (ih since)

/-- The tokens of a text do not overlap. -/
theorem tokenize_inOrder (text : String) : InOrder 0 (tokenize text).list :=
  scan_inOrder _ (Nat.le_refl 0)

/-! ## Words -/

/-- Words that are not empty and follow each other in the text. -/
structure Placed (ws : List Word) : Prop where
  pos : ∀ w ∈ ws, w.span.start.offset < w.span.stop.offset
  ordered : ws.Pairwise fun a b ↦ a.span.stop.offset ≤ b.span.start.offset

theorem Placed.sublist {ws ws' : List Word} (h : Placed ws) (sub : ws'.Sublist ws) : Placed ws' :=
  ⟨fun w hw ↦ h.pos w (sub.subset hw), h.ordered.sublist sub⟩

/-- The word that a token is, if it is one. -/
def Token.words (t : Token) : List Word :=
  match t.lexeme with
  | .word text => [⟨text, t.span⟩]
  | _ => []

theorem InOrder.placed {lo : Nat} {ts : List Token} (h : InOrder lo ts) :
    Placed (ts.flatMap Token.words) ∧
      ∀ w ∈ ts.flatMap Token.words, lo ≤ w.span.start.offset := by
  induction ts generalizing lo with
  | nil => exact ⟨⟨by simp, .nil⟩, by simp⟩
  | cons t ts ih =>
    obtain ⟨first, pos, rest⟩ := h
    obtain ⟨placed, behind⟩ := ih rest
    have later : lo ≤ t.stop.offset := Nat.le_trans first (Nat.le_of_lt pos)
    rw [List.flatMap_cons, Token.words]
    split
    next text _ =>
      refine ⟨⟨?_, ?_⟩, ?_⟩
      · exact List.forall_mem_cons.2 ⟨pos, placed.pos⟩
      · exact List.pairwise_cons.2 ⟨behind, placed.ordered⟩
      · exact List.forall_mem_cons.2 ⟨first, fun w hw ↦ Nat.le_trans later (behind w hw)⟩
    next => exact ⟨placed, fun w hw ↦ Nat.le_trans later (behind w hw)⟩

/-! ## What the reader holds -/

/-- The words of the operands that wait at one bracket level. -/
def Waiting.words (w : Waiting) : List Word :=
  (w.composed.map Expr.words).getD [] ++ (w.multiplied.map Expr.words).getD []

namespace Waiting

@[simp] theorem words_nothing : nothing.words = [] := rfl

@[simp] theorem words_value (w : Waiting) (x : Expr) : (w.value x).words = w.words ++ x.words := by
  obtain ⟨_ | _, _ | _⟩ := w <;> simp [value, factor, words, Expr.words]

@[simp] theorem words_times (w : Waiting) (x : Expr) : (w.times x).words = w.words ++ x.words := by
  obtain ⟨_ | _, _ | _⟩ := w <;> simp [times, factor, words, Expr.words]

@[simp] theorem words_after (w : Waiting) (x : Expr) : (w.after x).words = w.words ++ x.words := by
  simp [after, words]

end Waiting

/-- The words of the expression that an item holds. -/
def Item.words : Item → List Word
  | .signature .. => []
  | .functor _ body _ => body.words
  | .expression body _ => body.words

/-- The words that may end up in an expression, among those of the item in progress. -/
def Phase.words : Phase → List Word
  | .name _ word => [word]
  | .operand _ outer here => outer.reverse.flatMap Waiting.words ++ here.words
  | .operator _ outer here x _ => outer.reverse.flatMap Waiting.words ++ here.words ++ x.words
  | _ => []

/-- The words in the expressions that have been read, in the order of the text. -/
def Reading.words (r : Reading) : List Word := r.items.reverse.flatMap Item.words ++ r.phase.words

@[simp] theorem Goal.words_item (g : Goal) (here : Waiting) (x : Expr) (stop next : Position) :
    (g.item here x stop next).words = here.words ++ x.words := by
  cases g <;> simp [Goal.item, Item.words]

/-- What begins with a token holds no other word. -/
theorem Begins.words {e : Entry} {before : List Construct} {tok : Token} {phase : Phase}
    (h : Begins e before tok phase) : phase.words.Sublist tok.words := by
  cases h with
  | keyword => exact List.nil_sublist _
  | paren => exact List.nil_sublist _
  | name _ lexeme =>
    rw [Token.words, lexeme]
    exact List.Sublist.refl _

/-- A token adds at most its own word, at the end.  Types hold no words of expressions. -/
theorem Moves.words {e : Entry} {tok : Token} {items : List Item} {phase : Phase} {r : Reading}
    (h : Moves e tok items phase r) :
    r.words.Sublist (items.reverse.flatMap Item.words ++ phase.words ++ tok.words) := by
  induction h with
  | begin begins =>
    have := begins.words
    simpa [Reading.words, Phase.words] using this
  | name _ _ ih => simpa [Phase.words, Expr.words] using ih
  | word lexeme => simp [Reading.words, Phase.words, Expr.words, Token.words, lexeme]
  | complete begins =>
    have := begins.words
    simpa [Reading.words, Phase.words] using this
  | tyComplete begins =>
    have := begins.words
    simpa [Reading.words, Phase.words, Item.words] using this
  | _ => simp [Reading.words, Phase.words]

/-- The end of the text completes an item, or changes nothing. -/
theorem Finishes.words {p : Position} {phase : Phase} {last : List Item}
    (h : Finishes p phase last) : last.flatMap Item.words = phase.words := by
  cases h with
  | item => rfl
  | name => rw [List.flatMap_singleton, Goal.words_item]; rfl
  | expression => rw [List.flatMap_singleton, Goal.words_item]; rfl
  | signature => rfl

/-- The words in the expressions of a text are words of the text, in their order. -/
theorem read_words_sublist {e : Entry} {text : String} {items : List Item}
    (h : read e text = .ok items) :
    (items.flatMap Item.words).Sublist ((tokenize text).list.flatMap Token.words) := by
  -- what has been read and what is still to come never is more than the words of the text
  let total := (tokenize text).list.flatMap Token.words
  obtain ⟨r, last, collected, finishes, rfl⟩ := read_spec h
    (P := fun r tokens ↦ (r.words ++ tokens.flatMap Token.words).Sublist total)
    (fun p ↦ by cases e <;> exact List.Sublist.refl _)
    fun {r tok tokens r'} held moves ↦ by
      have grown := moves.words.append_right (tokens.flatMap Token.words)
      refine List.Sublist.trans ?_ held
      rwa [List.append_assoc, ← List.flatMap_cons] at grown
  rw [List.flatMap_append, finishes.words]
  rwa [List.flatMap_nil, List.append_nil] at collected

/-- The words in the expressions of a text are not empty and follow each other. -/
theorem read_words_placed {e : Entry} {text : String} {items : List Item}
    (h : read e text = .ok items) : Placed (items.flatMap Item.words) :=
  (tokenize_inOrder text).placed.1.sublist (read_words_sublist h)

end Taskflow.Grammar
