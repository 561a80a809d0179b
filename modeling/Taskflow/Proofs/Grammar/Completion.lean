import Taskflow.Proofs.Grammar.Entries
import Taskflow.Proofs.Grammar.Under

/-!
# What has been read can be completed

Wherever the reader is, the text up to there is the beginning of a text that the grammar accepts: a
name, or what is missing of the head of a declaration, and then a bracket for every one that is open
complete the item in progress (`Phase.Follows.exists_completion`).  So a text can be cut in front of
any token that the reader comes to, and what is left of it is viable (`viable_of_run`).
-/

namespace Taskflow.Grammar

/-! ## Closing what is open -/

namespace Pending

/-- An operand behind `p` once all parentheses are closed, and what waits in front of it then. -/
def close : List Pending → Pending → Phrase .term → Pending × Phrase .term
  | [], p, x => (p, x)
  | up :: outer, p, x => close outer up (.parens (p.value x))

theorem lexemes_close (outer : List Pending) (p : Pending) (x : Phrase .term) :
    (close outer p x).1.lexemes ++ (close outer p x).2.lexemes =
      enclosing outer ++ p.lexemes ++ x.lexemes ++ List.replicate outer.length .closeParen := by
  induction outer generalizing p x with
  | nil => simp [close, enclosing]
  | cons up outer ih =>
    rw [close, ih]
    simp [enclosing, Phrase.lexemes, List.replicate_succ]

end Pending

namespace Opened

/-- The bracket that closes a level. -/
def closing : Opened → Lexeme
  | .paren => .closeParen
  | .arguments .. => .closeBracket

/-- What a complete level is to the level around it. -/
def operand (o : Opened) (t : TyPhrase .type) : TyPhrase .atom :=
  match o with
  | .paren => .parens t
  | .arguments name isWord earlier => .applied name isWord (argumentsOf (.last t) earlier)

theorem lexemes_operand (o : Opened) (t : TyPhrase .type) :
    (o.operand t).lexemes = o.lexemes ++ t.lexemes ++ [o.closing] := by
  cases o with
  | paren => rfl
  | arguments name isWord earlier =>
    simp [operand, closing, lexemes, TyPhrase.lexemes, lexemes_argumentsOf]

/-- An operand behind `p` once all brackets are closed, and what waits in front of it then. -/
def close : List (PendingTy × Opened) → PendingTy → TyPhrase .atom → PendingTy × TyPhrase .atom
  | [], p, t => (p, t)
  | f :: outer, p, t => close outer f.1 (f.2.operand (p.value t))

theorem lexemes_close (outer : List (PendingTy × Opened)) (p : PendingTy) (t : TyPhrase .atom) :
    (close outer p t).1.lexemes ++ (close outer p t).2.lexemes =
      enclosing outer ++ p.lexemes ++ t.lexemes ++ outer.map (·.2.closing) := by
  induction outer generalizing p t with
  | nil => simp [close, enclosing]
  | cons f outer ih =>
    rw [close, ih]
    simp [enclosing, lexemes_operand]

end Opened

/-! ## Completing an item -/

/-- The lexemes that complete an item: a name, the signs of declarations and closing brackets. -/
def Lexeme.Closes : Lexeme → Prop
  | .word text => text = "x"
  | .declares | .equals | .closeParen | .closeBracket => True
  | _ => False

/-- Whether lexemes of an item in progress can be completed, with a signature if the reader is in a
text of signatures, and with an expression if it is in one. -/
def Phase.Completable (phase : Phase) (rest : List Lexeme) : Prop :=
  ∃ (closing : List Lexeme) (more : List Sentence), (∀ l ∈ closing, l.Closes) ∧
    lexemesOf more = rest ++ closing ∧ (phase.InSignature → ∀ s ∈ more, s.item.IsSignature) ∧
    (phase.InExpression → ∃ body span, more = [.expression body span])

theorem isName_x : IsName "x" := by decide

section

variable {phase : Phase} {rest head : List Lexeme}

/-- What is missing of one sentence completes the item. -/
theorem Phase.Completable.of_sentence (s : Sentence) (closing : List Lexeme)
    (closes : ∀ l ∈ closing, l.Closes) (lexemes : s.lexemes = rest ++ closing)
    (signature : phase.InSignature → s.item.IsSignature)
    (expression : phase.InExpression → ∃ body span, s = .expression body span) :
    phase.Completable rest := by
  refine ⟨closing, [s], closes, ?_, fun h ↦ List.forall_mem_singleton.2 (signature h), fun h ↦ ?_⟩
  · rw [lexemesOf, List.flatMap_singleton, lexemes]
  · obtain ⟨body, span, rfl⟩ := expression h
    exact ⟨body, span, rfl⟩

/-- An expression is complete once its parentheses are closed. -/
theorem Goal.Follows.completable {goal : Goal} (follows : goal.Follows head)
    (signature : ¬phase.InSignature) (root : phase.InExpression → goal.IsRoot)
    (outer : List Pending) (p : Pending) (x : Phrase .term) (first : List Lexeme)
    (closes : ∀ l ∈ first, l.Closes)
    (lexemes : rest ++ first = head ++ Pending.enclosing outer ++ p.lexemes ++ x.lexemes) :
    phase.Completable rest := by
  obtain ⟨s, item, written⟩ := follows.exists_sentence (Pending.close outer p x).1
    (Pending.close outer p x).2 .origin .origin
  refine .of_sentence s (first ++ List.replicate outer.length .closeParen) ?_ ?_
    (absurd · signature) fun h ↦ ?_
  · intro l hl
    rcases List.mem_append.1 hl with hl | hl
    · exact closes l hl
    · rw [List.eq_of_mem_replicate hl]
      trivial
  · rw [written, List.append_assoc, Pending.lexemes_close, ← List.append_assoc rest, lexemes]
    simp
  · have isRoot := root h
    cases goal with
    | root start =>
      cases s with
      | expression body span => exact ⟨body, span, rfl⟩
      | signature | functor => cases item
    | body => exact isRoot.elim

/-- A signature is complete once its brackets are closed. -/
theorem completable_signature {word : Word} (isName : IsName word.text)
    (expression : ¬phase.InExpression) (outer : List (PendingTy × Opened)) (p : PendingTy)
    (t : TyPhrase .atom) (first : List Lexeme) (closes : ∀ l ∈ first, l.Closes)
    (lexemes : rest ++ first =
      [.word word.text, .declares] ++ Opened.enclosing outer ++ p.lexemes ++ t.lexemes) :
    phase.Completable rest := by
  refine .of_sentence
    (.signature word isName ((Opened.close outer p t).1.value (Opened.close outer p t).2) .nowhere)
    (first ++ outer.map (·.2.closing)) ?_ ?_ (fun _ ↦ trivial) (absurd · expression)
  · intro l hl
    rcases List.mem_append.1 hl with hl | hl
    · exact closes l hl
    · obtain ⟨f, -, rfl⟩ := List.mem_map.1 hl
      cases f.2 <;> trivial
  · rw [Sentence.lexemes, PendingTy.lexemes_value, Opened.lexemes_close, ← List.append_assoc,
      lexemes]
    simp

/-- Wherever the reader is, the item in progress can be completed. -/
theorem Phase.Follows.completable (h : phase.Follows rest) : phase.Completable rest := by
  have name : ∀ l ∈ [Lexeme.word "x"], l.Closes := List.forall_mem_singleton.2 rfl
  have equals : ∀ l ∈ [Lexeme.equals, .word "x"], l.Closes := List.forall_mem_cons.2 ⟨trivial, name⟩
  let x : Phrase .term := .name ⟨"x", .nowhere⟩ isName_x
  cases phase with
  | item =>
    obtain rfl : rest = [] := h
    exact ⟨[], [], nofun, rfl, nofun, False.elim⟩
  | name before word =>
    obtain ⟨isName, rfl⟩ := h
    exact completable_signature isName id [] .nothing (.word "x" isName_x.word)
      [.declares, .word "x"] (List.forall_mem_cons.2 ⟨trivial, name⟩) rfl
  | keyword before start =>
    obtain rfl : rest = _ := h
    have follows : (Goal.body start ⟨"x", .nowhere⟩).Follows (functorHead true "x") :=
      ⟨isName_x, true, rfl⟩
    exact follows.completable id False.elim [] .nothing x
      [.word "x", .equals, .word "x"] (List.forall_mem_cons.2 ⟨rfl, equals⟩) rfl
  | functorName before start word =>
    obtain ⟨isName, rfl⟩ := h
    have follows : (Goal.body start word).Follows (functorHead true word.text) :=
      ⟨isName, true, rfl⟩
    exact follows.completable id False.elim [] .nothing x [.equals, .word "x"] equals rfl
  | operand goal outer here =>
    obtain ⟨head, ps, p, follows, -, -, rfl⟩ := h
    exact follows.completable id id ps p x [.word "x"] name rfl
  | operator goal outer here y stop =>
    obtain ⟨head, ps, p, y, follows, -, -, -, rfl⟩ := h
    exact follows.completable id id ps p y [] nofun (List.append_nil _)
  | tyOperand word outer here fresh =>
    obtain ⟨isName, fs, p, -, -, -, rfl⟩ := h
    exact completable_signature isName id fs p (.word "x" isName_x.word) [.word "x"] name
      rfl
  | tyOperator word outer here t bare =>
    obtain ⟨isName, fs, p, y, -, -, -, -, rfl⟩ := h
    exact completable_signature isName id fs p y [] nofun (List.append_nil _)

end

/-! ## Completing a text -/

/-- What holds of a reading besides what it has read, by what the text is read as. -/
def Entry.Allows : Entry → Reading → Prop
  | .program, _ => True
  | .signatures, r => r.phase.InSignature ∧ ∀ i ∈ r.items, i.IsSignature
  | .expression, r => r.phase.InExpression ∧ r.items = []

theorem Entry.allows_start (e : Entry) (p : Position) : e.Allows ⟨[], e.start p⟩ := by
  cases e with
  | program => trivial
  | signatures => exact ⟨trivial, nofun⟩
  | expression => exact ⟨trivial, rfl⟩

theorem Entry.Allows.move {e : Entry} {r r' : Reading} {tok : Token} (h : e.Allows r)
    (moves : Moves e tok r.items r.phase r') : e.Allows r' := by
  cases e with
  | program => trivial
  | signatures => exact (moves.program h.1 h.2).2
  | expression =>
    obtain ⟨inside, same⟩ := moves.lone h.1
    exact ⟨inside, same.trans h.2⟩

/-- What has been read is the beginning of a source. -/
theorem Reading.Follows.exists_source {e : Entry} {r : Reading} {ls : List Lexeme}
    (follows : r.Follows ls) (allows : e.Allows r) :
    ∃ (closing : List Lexeme) (source : List Sentence), (∀ l ∈ closing, l.Closes) ∧
      e.Admits source ∧ lexemesOf source = ls ++ closing := by
  obtain ⟨source, rest, complete, inProgress, rfl⟩ := follows
  obtain ⟨closing, more, closes, lexemes, signatures, expression⟩ := inProgress.completable
  refine ⟨closing, source ++ more, closes, ?_, ?_⟩
  · cases e with
    | program => trivial
    | signatures =>
      intro s hs
      rcases List.mem_append.1 hs with hs | hs
      · have item : s.item ∈ r.items.reverse := complete ▸ List.mem_map_of_mem hs
        exact allows.2 _ (List.mem_reverse.1 item)
      · exact signatures allows.1 s hs
    | expression =>
      rw [allows.2] at complete
      obtain rfl := List.map_eq_nil_iff.1 complete
      exact expression allows.1
  · rw [lexemesOf, List.flatMap_append, List.append_assoc]
    exact congrArg _ lexemes

/-- Texts are put one under the other. -/
theorem Snug.append_newline {ls rs : List Lexeme} {cs ds : List Char} (h : Snug ls cs)
    (h' : Snug rs ds) (other : .openBracket ∉ rs.head?) : Snug (ls ++ rs) (cs ++ '\n' :: ds) := by
  obtain ⟨lexemes, known, touches⟩ := (snug_iff .origin).1 h
  obtain ⟨lexemes', known', touches'⟩ :=
    (snug_iff (Position.origin.advanceAll (cs ++ ['\n']))).1 h'
  refine (snug_iff .origin).2 ⟨?_, ?_, ?_⟩
  · rw [scan_append_newline, List.map_append, lexemes, lexemes']
  · intro l hl
    exact (List.mem_append.1 hl).elim (known l) (known' l)
  · rw [scan_append_newline, touches_append]
    refine ⟨touches, ?_⟩
    cases tokens : scan (Position.origin.advanceAll (cs ++ ['\n'])) .between ds with
    | nil => trivial
    | cons t ts =>
      rw [tokens] at lexemes' touches'
      rw [← lexemes', List.map_cons, List.head?_cons, Option.mem_some_iff] at other
      exact ⟨fun bracket ↦ (other bracket).elim, touches'.2⟩

/-- No bracket that opens arguments completes an item. -/
theorem openBracket_notMem_head? {closing : List Lexeme} (closes : ∀ l ∈ closing, l.Closes) :
    .openBracket ∉ closing.head? :=
  fun mem ↦ closes _ (List.mem_of_mem_head? mem)

/-- What completes an item can be written. -/
theorem exists_snug_of_closes {closing : List Lexeme} (closes : ∀ l ∈ closing, l.Closes) :
    ∃ ds, Snug closing ds := by
  induction closing with
  | nil => exact ⟨[], .nil (.gap .nil)⟩
  | cons l closing ih =>
    obtain ⟨first, closes⟩ := List.forall_mem_cons.1 closes
    obtain ⟨ds, snug⟩ := ih closes
    obtain ⟨written, alone⟩ : ∃ written, Snug [l] written := by
      cases l with
      | word text =>
        obtain rfl : text = "x" := first
        exact ⟨['x'], by decide⟩
      | declares => exact ⟨[':', ':'], by decide⟩
      | equals => exact ⟨['='], by decide⟩
      | closeParen => exact ⟨[')'], by decide⟩
      | closeBracket => exact ⟨[']'], by decide⟩
      | _ => exact first.elim
    exact ⟨written ++ '\n' :: ds, alone.append_newline snug (openBracket_notMem_head? closes)⟩

/-- Whether some continuation of a text makes it the text of a source of the right kind. -/
def Entry.Viable (e : Entry) (front : List Char) : Prop :=
  ∃ more source, e.Admits source ∧ Snug (lexemesOf source) (front ++ more)

/-- What the reader has read up to a token is what stands in front of that token, and viable. -/
theorem viable_of_run {e : Entry} {text : String} {before after : List Token} {r : Reading}
    {p : Position} (split : before ++ after = (tokenize text).list)
    (run : before.foldlM (Reading.step e) ⟨[], e.start p⟩ = .ok r) :
    ∃ front back, text.toList = front ++ back ∧ e.Viable front ∧
      Position.origin.advanceAll front =
        (after.head?.map Token.start).getD (tokenize text).stop := by
  obtain ⟨before', all, behind, allows⟩ := run_spec
    (P := fun r rest ↦ ∃ before, before ++ rest = (tokenize text).list ∧ r.Behind before ∧
      e.Allows r)
    (fun {r tok rest r'} held moves ↦ by
      obtain ⟨before, all, behind, allows⟩ := held
      have mem : tok ∈ (tokenize text).list := all ▸ List.mem_append_right _ List.mem_cons_self
      exact ⟨before ++ [tok], by simpa using all,
        behind.move (tokenize_legible text tok mem) moves, allows.move moves⟩)
    ⟨[], split, .start e p, e.allows_start p⟩ run
  obtain rfl : before' = before := List.append_cancel_right (all.trans split.symm)
  obtain ⟨front, back, whole, snug, stop⟩ :=
    exists_cut text.toList (p := .origin) split.symm behind.known behind.touches
  obtain ⟨closing, source, closes, admits, lexemes⟩ := behind.follows.exists_source allows
  obtain ⟨ds, written⟩ := exists_snug_of_closes closes
  refine ⟨front, back, whole, ⟨'\n' :: ds, source, admits, ?_⟩, stop⟩
  rw [lexemes]
  exact snug.append_newline written (openBracket_notMem_head? closes)

end Taskflow.Grammar
