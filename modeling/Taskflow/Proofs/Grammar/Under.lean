import Mathlib.Tactic.SplitIfs
import Taskflow.Proofs.Grammar.Moves

/-!
# Texts under other texts

A text that is put under another one, from a new line on, has the same tokens further down: each
place is moved by the length of the text above and by its number of lines (`Position.under`).  The
scanner, wherever it is in the text above, is between two tokens once the line has ended
(`scan_append_newline`).

So is the reader, in a sense.  Every token that may begin a text also ends the item in progress
(`Finishes.exists_begins`), and from then on reading goes on as if the text under it stood alone:
`Reading.Under` is what a reading of that text and one of the whole have in common.  It follows that
the items of two texts are those of the first one and those of the second one further down
(`read_append`).  Only where the last item of the first text ends is not decided by that text, since
an item may reach to the next token.
-/

namespace Taskflow

/-! ## Places further down -/

/-- The place of `p` if its text stands under `b`, the beginning of a line. -/
def Position.under (p b : Position) : Position := ⟨b.offset + p.offset, b.line + p.line, p.column⟩

def Span.under (s : Span) (b : Position) : Span := ⟨s.start.under b, s.stop.under b⟩

namespace Position

theorem advance_under (p b : Position) (c : Char) :
    (p.advance c).under b = (p.under b).advance c := by
  unfold advance
  split <;> simp [under, Nat.add_assoc]

theorem advanceAll_under (p b : Position) (cs : List Char) :
    (p.advanceAll cs).under b = (p.under b).advanceAll cs := by
  induction cs generalizing p with
  | nil => rfl
  | cons c cs ih => rw [advanceAll_cons, advanceAll_cons, ih, advance_under]

/-- The first place of a text that stands under the beginning of a line. -/
theorem origin_under {b : Position} (line : b.column = 0) : origin.under b = b := by
  cases b
  simp_all [under, origin]

/-- Behind a line feed a line begins. -/
theorem column_advanceAll_newline (p : Position) (cs : List Char) :
    (p.advanceAll (cs ++ ['\n'])).column = 0 := by
  rw [advanceAll_append]
  rfl

end Position

namespace Grammar

def Token.under (t : Token) (b : Position) : Token :=
  ⟨t.lexeme, t.start.under b, t.stop.under b⟩

def Word.under (w : Word) (b : Position) : Word := ⟨w.text, w.span.under b⟩

def Expr.under (b : Position) : Expr → Expr
  | .name word => .name (word.under b)
  | .compose outer inner => .compose (outer.under b) (inner.under b)
  | .product left right => .product (left.under b) (right.under b)

def Item.under (b : Position) : Item → Item
  | .signature name ty span => .signature (name.under b) ty (span.under b)
  | .functor name body span => .functor (name.under b) (body.under b) (span.under b)
  | .expression body span => .expression (body.under b) (span.under b)

/-- An item that ends somewhere else. -/
def Item.endingAt (stop : Position) : Item → Item
  | .signature name ty span => .signature name ty ⟨span.start, stop⟩
  | .functor name body span => .functor name body ⟨span.start, stop⟩
  | .expression body span => .expression body ⟨span.start, stop⟩

@[simp] theorem Item.endingAt_stop (i : Item) : i.endingAt i.span.stop = i := by
  cases i <;> rfl

/-! ## Scanning -/

namespace Mode

def under (b : Position) : Mode → Mode
  | .between => .between
  | .comment => .comment
  | .word start letters => .word (start.under b) letters
  | .colon start => .colon (start.under b)
  | .hyphen start => .hyphen (start.under b)

theorem close_under (m : Mode) (p b : Position) :
    (m.under b).close (p.under b) = (m.close p).map (·.under b) := by
  cases m <;> rfl

theorem open'_under (p b : Position) (c : Char) :
    open' (p.under b) c = ((open' p c).1.map (·.under b), (open' p c).2.under b) := by
  have moved := p.advance_under b c
  unfold open'
  split_ifs <;> simp [under, Token.under, moved]

theorem feed_under (m : Mode) (p b : Position) (c : Char) :
    (m.under b).feed (p.under b) c =
      ((m.feed p c).1.map (·.under b), (m.feed p c).2.under b) := by
  have opens := open'_under p b c
  have moved := p.advance_under b c
  cases m with
  | between => exact opens
  | comment => simp only [under, feed]; split_ifs <;> rfl
  | word | colon | hyphen =>
    simp only [under, feed]
    split_ifs <;> simp [under, close, opens, Token.under, moved]

/-- A line feed ends whatever the scanner is in the middle of. -/
theorem feed_newline (m : Mode) (p : Position) : m.feed p '\n' = (m.close p, .between) := by
  cases m <;> rfl

end Mode

/-- A text has the same tokens wherever it begins. -/
theorem scan_under (m : Mode) (p b : Position) (cs : List Char) :
    scan (p.under b) (m.under b) cs = (scan p m cs).map (·.under b) := by
  induction cs generalizing m p with
  | nil => exact m.close_under p b
  | cons c cs ih =>
    rw [scan, scan, Mode.feed_under, ← Position.advance_under, ih, List.map_append]

/-- A text is cut where a line ends. -/
theorem scan_append_newline (m : Mode) (p : Position) (cs ds : List Char) :
    scan p m (cs ++ '\n' :: ds) =
      scan p m cs ++ scan (p.advanceAll (cs ++ ['\n'])) .between ds := by
  induction cs generalizing m p with
  | nil =>
    show (m.feed p '\n').1 ++ scan _ (m.feed p '\n').2 ds = m.close p ++ _
    rw [Mode.feed_newline]
    rfl
  | cons c cs ih =>
    rw [List.cons_append, scan, ih, scan, List.append_assoc]
    rfl

/-- Where the text begins that is put under another one. -/
def underText (text : String) : Position := Position.origin.advanceAll (text.toList ++ ['\n'])

theorem origin_under_underText (text : String) :
    Position.origin.under (underText text) = underText text :=
  Position.origin_under (Position.column_advanceAll_newline _ _)

/-- The tokens of two texts, the second one under the first one. -/
theorem tokenize_append (s t : String) :
    (tokenize (s ++ "\n" ++ t)).list =
      (tokenize s).list ++ (tokenize t).list.map (·.under (underText s)) := by
  have whole : (s ++ "\n" ++ t).toList = s.toList ++ '\n' :: t.toList := by simp
  show scan .origin .between (s ++ "\n" ++ t).toList = _
  rw [whole, scan_append_newline]
  show _ ++ scan (underText s) .between t.toList = _
  rw [← origin_under_underText s]
  exact congrArg _ (scan_under .between .origin (underText s) t.toList)

theorem stop_tokenize_append (s t : String) :
    (tokenize (s ++ "\n" ++ t)).stop = (tokenize t).stop.under (underText s) := by
  have whole : (s ++ "\n" ++ t).toList = (s.toList ++ ['\n']) ++ t.toList := by simp
  show Position.origin.advanceAll (s ++ "\n" ++ t).toList = _
  rw [whole, Position.advanceAll_append]
  show (underText s).advanceAll t.toList = (Position.origin.advanceAll t.toList).under (underText s)
  rw [Position.advanceAll_under, origin_under_underText]

/-! ## Readings -/

namespace Waiting

def under (w : Waiting) (b : Position) : Waiting :=
  ⟨w.composed.map (·.under b), w.multiplied.map (·.under b)⟩

variable (w : Waiting) (x : Expr) (b : Position)

theorem factor_under : (w.under b).factor (x.under b) = (w.factor x).under b := by
  obtain ⟨composed, _ | left⟩ := w <;> rfl

theorem value_under : (w.under b).value (x.under b) = (w.value x).under b := by
  have factor := w.factor_under x b
  obtain ⟨_ | outer, multiplied⟩ := w
  · exact factor
  · exact congrArg _ factor

theorem times_under : (w.under b).times (x.under b) = (w.times x).under b := by
  rw [times, factor_under]
  rfl

theorem after_under : (w.under b).after (x.under b) = (w.after x).under b := by
  rw [after, value_under]
  rfl

end Waiting

def Goal.under (b : Position) : Goal → Goal
  | .root start => .root (start.under b)
  | .body start name => .body (start.under b) (name.under b)

theorem Goal.item_under (g : Goal) (here : Waiting) (x : Expr) (stop next b : Position) :
    (g.under b).item (here.under b) (x.under b) (stop.under b) (next.under b) =
      (g.item here x stop next).under b := by
  have value := here.value_under x b
  have last : (if (here.under b).composed.isSome && (here.under b).multiplied.isSome
      then stop.under b else next.under b) =
        (if here.composed.isSome && here.multiplied.isSome then stop else next).under b := by
    simp only [Waiting.under, Option.isSome_map]
    split <;> rfl
  cases g <;> simp only [Goal.item, Goal.under, value, last] <;> rfl

/-- Whether the reader is at the same point of the grammar in a text and in the same text under
another one.  What the item before could have continued with does not count. -/
inductive Phase.Under (b : Position) : Phase → Phase → Prop
  | name {before before' word} : Under b (.name before word) (.name before' (word.under b))
  | keyword {before before' start} :
      Under b (.keyword before start) (.keyword before' (start.under b))
  | functorName {before before' start word} : Under b (.functorName before start word)
      (.functorName before' (start.under b) (word.under b))
  | operand {goal outer here} : Under b (.operand goal outer here)
      (.operand (goal.under b) (outer.map (·.under b)) (here.under b))
  | operator {goal outer here x stop} : Under b (.operator goal outer here x stop)
      (.operator (goal.under b) (outer.map (·.under b)) (here.under b) (x.under b) (stop.under b))
  | tyOperand {name outer here fresh} :
      Under b (.tyOperand name outer here fresh) (.tyOperand (name.under b) outer here fresh)
  | tyOperator {name outer here t bare} : Under b (.tyOperator name outer here t bare)
      (.tyOperator (name.under b) outer here t (bare.map fun w ↦ (w.1, w.2.under b)))

/-- Whether a reading of a text is the part of a reading of the whole that comes behind some items,
the latest first. -/
structure Reading.Under (b : Position) (above : List Item) (r r' : Reading) : Prop where
  items : r'.items = r.items.map (·.under b) ++ above
  phase : r.phase.Under b r'.phase

variable {b : Position} {tok : Token} {e : Entry}

/-- A token begins an item wherever it stands. -/
theorem Begins.under {before : List Construct} {phase : Phase} (h : Begins e before tok phase)
    (before' : List Construct) :
    ∃ phase', Begins e before' (tok.under b) phase' ∧ phase.Under b phase' := by
  cases h with
  | keyword program lexeme => exact ⟨_, .keyword program lexeme, .keyword⟩
  | paren program lexeme => exact ⟨_, .paren program lexeme, .operand⟩
  | name other lexeme ne_functor ne_o => exact ⟨_, .name other lexeme ne_functor ne_o, .name⟩

/-- A token is read further down as it is read in a text that stands alone. -/
theorem Moves.under {items : List Item} {phase phase' : Phase} {r : Reading}
    (h : Moves e tok items phase r) (above : List Item) (same : phase.Under b phase') :
    ∃ r', Moves e (tok.under b) (items.map (·.under b) ++ above) phase' r' ∧
      r.Under b above r' := by
  induction h generalizing phase' with
  | begin => cases same
  | signature lexeme =>
    cases same
    exact ⟨_, .signature lexeme, rfl, .tyOperand⟩
  | functor program lexeme =>
    cases same
    exact ⟨_, .functor program lexeme, rfl, .operand⟩
  | name program _ ih =>
    cases same
    obtain ⟨r', moves, under⟩ := ih .operator
    exact ⟨r', .name program moves, under⟩
  | keyword lexeme ne_functor ne_o =>
    cases same
    exact ⟨_, .keyword lexeme ne_functor ne_o, rfl, .functorName⟩
  | functorName lexeme =>
    cases same
    exact ⟨_, .functorName lexeme, rfl, .operand⟩
  | word lexeme ne_functor ne_o =>
    cases same
    exact ⟨_, .word lexeme ne_functor ne_o, rfl, .operator⟩
  | paren lexeme =>
    cases same
    exact ⟨_, .paren lexeme, rfl, .operand⟩
  | times lexeme =>
    cases same
    refine ⟨_, .times lexeme, rfl, ?_⟩
    rw [Waiting.times_under]
    exact .operand
  | after lexeme =>
    cases same
    refine ⟨_, .after lexeme, rfl, ?_⟩
    rw [Waiting.after_under]
    exact .operand
  | close lexeme =>
    cases same
    refine ⟨_, .close lexeme, rfl, ?_⟩
    rw [Waiting.value_under]
    exact .operator
  | complete begins =>
    cases same
    obtain ⟨phase', begins', under⟩ := begins.under continuations
    refine ⟨_, .complete begins', ?_, under⟩
    rw [List.map_cons, List.cons_append, ← Goal.item_under]
    rfl
  | tyWord lexeme =>
    cases same
    exact ⟨_, .tyWord lexeme, rfl, .tyOperator⟩
  | tyParen lexeme =>
    cases same
    exact ⟨_, .tyParen lexeme, rfl, .tyOperand⟩
  | tyUnit lexeme =>
    cases same
    exact ⟨_, .tyUnit lexeme, rfl, .tyOperator⟩
  | tyTimes lexeme =>
    cases same
    exact ⟨_, .tyTimes lexeme, rfl, .tyOperand⟩
  | tyArrow lexeme =>
    cases same
    exact ⟨_, .tyArrow lexeme, rfl, .tyOperand⟩
  | tyClose lexeme =>
    cases same
    exact ⟨_, .tyClose lexeme, rfl, .tyOperator⟩
  | tyBracket lexeme =>
    cases same
    exact ⟨_, .tyBracket lexeme, rfl, .tyOperand⟩
  | tyComma lexeme =>
    cases same
    exact ⟨_, .tyComma lexeme, rfl, .tyOperand⟩
  | tyArguments lexeme =>
    cases same
    exact ⟨_, .tyArguments lexeme, rfl, .tyOperator⟩
  | tyComplete begins =>
    cases same
    obtain ⟨phase', begins', under⟩ := begins.under _
    exact ⟨_, .tyComplete begins', rfl, under⟩

/-- Tokens are read further down as they are read in a text that stands alone. -/
theorem Reading.Under.foldlM {above : List Item} {tokens : List Token} {r₁ r₂ r₁' : Reading}
    (same : r₁.Under b above r₁') (h : tokens.foldlM (Reading.step e) r₁ = .ok r₂) :
    ∃ r₂', (tokens.map (·.under b)).foldlM (Reading.step e) r₁' = .ok r₂' ∧
      r₂.Under b above r₂' := by
  induction tokens generalizing r₁ r₁' with
  | nil =>
    cases h
    exact ⟨r₁', rfl, same⟩
  | cons tok tokens ih =>
    rw [List.foldlM_cons] at h
    obtain ⟨middle, first, rest⟩ := Except.bind_eq_ok_iff.1 h
    obtain ⟨middle', moves, under⟩ := (moves_of_step first).under above same.phase
    obtain ⟨r₂', reads, final⟩ := ih under rest
    refine ⟨r₂', ?_, final⟩
    rw [← same.items] at moves
    rw [List.map_cons, List.foldlM_cons]
    exact Except.bind_eq_ok_iff.2 ⟨middle', step_of_moves moves, reads⟩

/-- The end of a text completes the same item further down. -/
theorem Finishes.under {p : Position} {phase phase' : Phase} {last : List Item}
    (h : Finishes p phase last) (same : phase.Under b phase') :
    Finishes (p.under b) phase' (last.map (·.under b)) := by
  cases h with
  | item => cases same
  | name =>
    cases same
    exact .name
  | expression =>
    cases same
    rw [List.map_singleton, ← Goal.item_under]
    exact .expression
  | signature =>
    cases same
    exact .signature

/-! ## Two texts -/

/-- Where the text could end, a token that may begin an item begins the next one. -/
theorem Finishes.exists_begins {p : Position} {phase phase' : Phase} {items last : List Item}
    {tok : Token} (h : Finishes p phase last) (begins : Begins .program [] tok phase') :
    ∃ phase'' stop, Moves .program (tok.under b) items phase
        ⟨(last.map (·.endingAt stop)).reverse ++ items, phase''⟩ ∧ phase'.Under b phase'' := by
  cases h with
  | item =>
    obtain ⟨phase'', begins', under⟩ := begins.under []
    exact ⟨phase'', p, .begin begins', under⟩
  | name =>
    obtain ⟨phase'', begins', under⟩ := begins.under continuations
    exact ⟨phase'', _, .name rfl (.complete begins'), under⟩
  | @expression goal here x stop =>
    obtain ⟨phase'', begins', under⟩ := begins.under continuations
    refine ⟨phase'', (goal.item here x stop (tok.under b).start).span.stop, ?_, under⟩
    have moved : (goal.item here x stop p).endingAt
        (goal.item here x stop (tok.under b).start).span.stop =
          goal.item here x stop (tok.under b).start := by
      cases goal <;> rfl
    rw [List.map_singleton, moved]
    exact .complete begins'
  | signature =>
    obtain ⟨phase'', begins', under⟩ := begins.under _
    exact ⟨phase'', _, .tyComplete begins', under⟩

/-- Where the text could end, it could end elsewhere. -/
theorem Finishes.exists_finishes {p : Position} {phase : Phase} {last : List Item}
    (h : Finishes p phase last) (q : Position) :
    ∃ stop, Finishes q phase (last.map (·.endingAt stop)) := by
  cases h with
  | item => exact ⟨q, .item⟩
  | name => exact ⟨_, .name⟩
  | @expression goal here x stop =>
    refine ⟨(goal.item here x stop q).span.stop, ?_⟩
    have moved : (goal.item here x stop p).endingAt (goal.item here x stop q).span.stop =
        goal.item here x stop q := by
      cases goal <;> rfl
    rw [List.map_singleton, moved]
    exact .expression
  | signature => exact ⟨_, .signature⟩

/-- Items, the last of which ends somewhere else. -/
def lastEndingAt (stop : Position) : List Item → List Item
  | [] => []
  | [i] => [i.endingAt stop]
  | i :: j :: rest => i :: lastEndingAt stop (j :: rest)

theorem lastEndingAt_concat (stop : Position) (items : List Item) (i : Item) :
    lastEndingAt stop (items ++ [i]) = items ++ [i.endingAt stop] := by
  induction items with
  | nil => rfl
  | cons j items ih =>
    cases items with
    | nil => rfl
    | cons k items => exact congrArg (j :: ·) ih

/-- The last item may end where it ends. -/
theorem exists_lastEndingAt_eq (items : List Item) : ∃ stop, lastEndingAt stop items = items := by
  rcases List.eq_nil_or_concat items with rfl | ⟨front, i, rfl⟩
  · exact ⟨.origin, rfl⟩
  · refine ⟨i.span.stop, ?_⟩
    rw [List.concat_eq_append, lastEndingAt_concat, Item.endingAt_stop]

/-- The items that a text ends with are those in front of the last one, and the last one. -/
theorem Finishes.exists_lastEndingAt {p : Position} {phase : Phase} {last : List Item}
    (h : Finishes p phase last) (items : List Item) (stop : Position) :
    ∃ stop', items ++ last.map (·.endingAt stop) = lastEndingAt stop' (items ++ last) := by
  cases h with
  | item =>
    obtain ⟨stop', same⟩ := exists_lastEndingAt_eq items
    exact ⟨stop', by simp [same]⟩
  | name | expression | signature => exact ⟨stop, (lastEndingAt_concat _ _ _).symm⟩

/-- The items of two texts, the second one under the first one, are those of the first one and
those of the second one.  Where the last item of the first one ends may change. -/
theorem read_append {s t : String} {items items' : List Item} (hs : read .program s = .ok items)
    (ht : read .program t = .ok items') :
    ∃ stop, read .program (s ++ "\n" ++ t) =
      .ok (lastEndingAt stop items ++ items'.map (·.under (underText s))) := by
  obtain ⟨r, reads, finishes⟩ := Except.bind_eq_ok_iff.1 hs
  obtain ⟨r', reads', finishes'⟩ := Except.bind_eq_ok_iff.1 ht
  obtain ⟨last, ends, rfl⟩ := finishes_of_finish finishes
  obtain ⟨last', ends', rfl⟩ := finishes_of_finish finishes'
  have tokens := tokenize_append s t
  have stops := stop_tokenize_append s t
  -- what is left to show of a reading of the whole text
  have whole {r'' : Reading} {items : List Item}
      (rest : ((tokenize t).list.map (·.under (underText s))).foldlM (Reading.step .program) r =
        .ok r'')
      (finish : r''.finish .program ((tokenize t).stop.under (underText s)) = .ok items) :
      read .program (s ++ "\n" ++ t) = .ok items := by
    refine Except.bind_eq_ok_iff.2 ⟨r'', ?_, by rwa [stops]⟩
    rw [tokens, List.foldlM_append]
    exact Except.bind_eq_ok_iff.2 ⟨r, reads, rest⟩
  cases shape : (tokenize t).list with
  | nil =>
    -- there is nothing but layout under the first text
    rw [shape] at reads' whole
    cases reads'
    cases ends'
    obtain ⟨stop, here⟩ := ends.exists_finishes ((tokenize t).stop.under (underText s))
    obtain ⟨stop', same⟩ := ends.exists_lastEndingAt r.items.reverse stop
    refine ⟨stop', whole rfl ?_⟩
    rw [finish_of_finishes here, same]
    simp
  | cons tok rest =>
    rw [shape] at reads' whole
    rw [List.foldlM_cons] at reads'
    obtain ⟨middle, first, rest⟩ := Except.bind_eq_ok_iff.1 reads'
    cases moves_of_step first with
    | @begin phase begins =>
      obtain ⟨phase', stop, moves, under⟩ := ends.exists_begins (b := underText s) begins
      have behind : Reading.Under (underText s) ((last.map (·.endingAt stop)).reverse ++ r.items)
          ⟨[], phase⟩ ⟨_, phase'⟩ := ⟨rfl, under⟩
      obtain ⟨r'', reads'', final⟩ := behind.foldlM rest
      obtain ⟨stop', same⟩ := ends.exists_lastEndingAt r.items.reverse stop
      refine ⟨stop', whole (Except.bind_eq_ok_iff.2 ⟨_, step_of_moves moves, reads''⟩) ?_⟩
      rw [finish_of_finishes (ends'.under final.phase), final.items]
      simp [← same]

end Grammar

end Taskflow
