import Taskflow.Grammar.Parse
import Taskflow.Proofs.Except

/-!
# What the reader can do

`Moves` says what becomes of a reading with a token that it does not refuse, one rule for each place
in the grammar and each kind of token that can stand there, and `Finishes` what becomes of it at the
end of the text.  They cover the reader (`moves_of_step`, `finishes_of_finish`), so what all
readings have in common is proved by cases on the rules: a fact about one token, and then one about
the whole text by `read_spec`.  The rules do not say more than the reader does (`step_of_moves`,
`finish_of_finishes`), so a reading can also be shown by its rules.
-/

namespace Taskflow.Grammar

/-- How a token begins an item. -/
inductive Begins (e : Entry) (before : List Construct) (tok : Token) : Phase → Prop
  | keyword : e = .program → tok.lexeme = .word "functor" →
      Begins e before tok (.keyword before tok.start)
  | paren : e = .program → tok.lexeme = .openParen →
      Begins e before tok (.operand (.root tok.start) [.nothing] .nothing)
  | name {text} : e ≠ .expression → tok.lexeme = .word text → text ≠ "functor" → text ≠ "o" →
      Begins e before tok (.name before ⟨text, tok.span⟩)

/-- What becomes of a reading with a token. -/
inductive Moves (e : Entry) (tok : Token) (items : List Item) : Phase → Reading → Prop
  | begin {phase} : Begins e [] tok phase → Moves e tok items .item ⟨items, phase⟩
  | signature {before word} : tok.lexeme = .declares →
      Moves e tok items (.name before word) ⟨items, .tyOperand word [] .nothing false⟩
  | functor {before word} : e = .program → tok.lexeme = .equals →
      Moves e tok items (.name before word)
        ⟨items, .operand (.body word.span.start word) [] .nothing⟩
  /-- the name is the first operand of an expression -/
  | name {before word r} : e = .program →
      Moves e tok items
        (.operator (.root word.span.start) [] .nothing (.name word) word.span.stop) r →
      Moves e tok items (.name before word) r
  | keyword {before start text} : tok.lexeme = .word text → text ≠ "functor" → text ≠ "o" →
      Moves e tok items (.keyword before start)
        ⟨items, .functorName before start ⟨text, tok.span⟩⟩
  | functorName {before start word} : tok.lexeme = .equals →
      Moves e tok items (.functorName before start word)
        ⟨items, .operand (.body start word) [] .nothing⟩
  | word {goal outer here text} : tok.lexeme = .word text → text ≠ "functor" → text ≠ "o" →
      Moves e tok items (.operand goal outer here)
        ⟨items, .operator goal outer here (.name ⟨text, tok.span⟩) tok.stop⟩
  | paren {goal outer here} : tok.lexeme = .openParen →
      Moves e tok items (.operand goal outer here) ⟨items, .operand goal (here :: outer) .nothing⟩
  | times {goal outer here x stop} : tok.lexeme = .cross →
      Moves e tok items (.operator goal outer here x stop)
        ⟨items, .operand goal outer (here.times x)⟩
  | after {goal outer here x stop} : tok.lexeme = .circle ∨ tok.lexeme = .word "o" →
      Moves e tok items (.operator goal outer here x stop)
        ⟨items, .operand goal outer (here.after x)⟩
  | close {goal up rest here x stop} : tok.lexeme = .closeParen →
      Moves e tok items (.operator goal (up :: rest) here x stop)
        ⟨items, .operator goal rest up (here.value x) tok.stop⟩
  | complete {goal here x stop phase} : Begins e continuations tok phase →
      Moves e tok items (.operator goal [] here x stop)
        ⟨goal.item here x stop tok.start :: items, phase⟩
  | tyWord {name outer here fresh text} : tok.lexeme = .word text →
      Moves e tok items (.tyOperand name outer here fresh)
        ⟨items, .tyOperator name outer here (tyOfWord text) (some (text, tok.stop))⟩
  | tyParen {name outer here fresh} : tok.lexeme = .openParen →
      Moves e tok items (.tyOperand name outer here fresh)
        ⟨items, .tyOperand name ((here, .paren) :: outer) .nothing true⟩
  | tyUnit {name up bracket rest here} : tok.lexeme = .closeParen →
      Moves e tok items (.tyOperand name ((up, bracket) :: rest) here true)
        ⟨items, .tyOperator name rest up .unit none⟩
  | tyTimes {name outer here t bare} : tok.lexeme = .cross →
      Moves e tok items (.tyOperator name outer here t bare)
        ⟨items, .tyOperand name outer (here.times t) false⟩
  | tyArrow {name outer here t bare} : tok.lexeme = .arrow →
      Moves e tok items (.tyOperator name outer here t bare)
        ⟨items, .tyOperand name outer (here.thenTo t) false⟩
  | tyClose {name up rest here t bare} : tok.lexeme = .closeParen →
      Moves e tok items (.tyOperator name ((up, .paren) :: rest) here t bare)
        ⟨items, .tyOperator name rest up (here.value t) none⟩
  /-- the first argument of a name begins -/
  | tyBracket {name outer here t text} : tok.lexeme = .openBracket →
      Moves e tok items (.tyOperator name outer here t (some (text, tok.start)))
        ⟨items, .tyOperand name ((here, .arguments text []) :: outer) .nothing false⟩
  | tyComma {name up f ts rest here t bare} : tok.lexeme = .comma →
      Moves e tok items (.tyOperator name ((up, .arguments f ts) :: rest) here t bare)
        ⟨items, .tyOperand name ((up, .arguments f (here.value t :: ts)) :: rest) .nothing false⟩
  | tyArguments {name up f ts rest here t bare} : tok.lexeme = .closeBracket →
      Moves e tok items (.tyOperator name ((up, .arguments f ts) :: rest) here t bare)
        ⟨items, .tyOperator name rest up (tyOfArguments f (here.value t :: ts).reverse) none⟩
  | tyComplete {name here t bare phase} : Begins e (tyContinuations bare tok.start) tok phase →
      Moves e tok items (.tyOperator name [] here t bare)
        ⟨.signature name (here.value t) ⟨name.span.start, tok.start⟩ :: items, phase⟩

/-- The items that the end of a text at `p` completes: the one in progress, if there is one. -/
inductive Finishes (p : Position) : Phase → List Item → Prop
  | item : Finishes p .item []
  | name {before word} : Finishes p (.name before word)
      [Goal.item (.root word.span.start) .nothing (.name word) word.span.stop p]
  | expression {goal here x stop} :
      Finishes p (.operator goal [] here x stop) [goal.item here x stop p]
  | signature {name here t bare} : Finishes p (.tyOperator name [] here t bare)
      [.signature name (here.value t) ⟨name.span.start, p⟩]

section Moves

variable {e : Entry} {tok : Token} {items : List Item} {r : Reading}

theorem begins_of_beginItem {before : List Construct} {phase : Phase}
    (h : e.beginItem before tok = .ok phase) : Begins e before tok phase := by
  unfold Entry.beginItem at h
  split at h
  next lexeme =>
    cases h
    exact .keyword rfl lexeme
  next lexeme =>
    cases h
    exact .paren rfl lexeme
  · cases h
  next notExpression lexeme =>
    split at h
    · cases h
    next other =>
      cases h
      rw [not_or] at other
      exact .name notExpression lexeme other.1 other.2
  · cases h

theorem moves_of_operate {goal : Goal} {outer : List Waiting} {here : Waiting} {x : Expr}
    {stop : Position} (h : Phase.operate e items goal outer here x stop tok = .ok r) :
    Moves e tok items (.operator goal outer here x stop) r := by
  unfold Phase.operate at h
  split at h
  next lexeme =>
    cases h
    exact .times lexeme
  next lexeme =>
    cases h
    exact .after (.inl lexeme)
  next lexeme =>
    cases h
    exact .after (.inr lexeme)
  next lexeme =>
    cases h
    exact .close lexeme
  · cases h
  · obtain ⟨phase, begins, same⟩ := Except.bind_eq_ok_iff.1 h
    cases same
    exact .complete (begins_of_beginItem begins)

variable {name : Word} {outer : List (WaitingTy × Bracket)} {here : WaitingTy}

theorem moves_of_operandTy {fresh : Bool}
    (h : Phase.operandTy items name outer here fresh tok = .ok r) :
    Moves e tok items (.tyOperand name outer here fresh) r := by
  unfold Phase.operandTy at h
  split at h
  next lexeme =>
    cases h
    exact .tyWord lexeme
  next lexeme =>
    cases h
    exact .tyParen lexeme
  next lexeme =>
    split at h
    · cases h
      exact .tyUnit lexeme
    · cases h
  · cases h

theorem moves_of_leaveTy {t : Ty} {bare : Option (String × Position)}
    (h : Phase.leaveTy e items name outer here t bare tok = .ok r) :
    Moves e tok items (.tyOperator name outer here t bare) r := by
  unfold Phase.leaveTy at h
  split at h
  · cases h
  · obtain ⟨phase, begins, same⟩ := Except.bind_eq_ok_iff.1 h
    cases same
    exact .tyComplete (begins_of_beginItem begins)

theorem moves_of_operateTy {t : Ty} {bare : Option (String × Position)}
    (h : Phase.operateTy e items name outer here t bare tok = .ok r) :
    Moves e tok items (.tyOperator name outer here t bare) r := by
  unfold Phase.operateTy at h
  split at h
  next lexeme =>
    cases h
    exact .tyTimes lexeme
  next lexeme =>
    cases h
    exact .tyArrow lexeme
  next lexeme =>
    cases h
    exact .tyClose lexeme
  next lexeme =>
    cases h
    exact .tyComma lexeme
  next lexeme =>
    cases h
    exact .tyArguments lexeme
  next lexeme =>
    split at h
    next touches =>
      cases h
      subst touches
      exact .tyBracket lexeme
    · exact moves_of_leaveTy h
  · exact moves_of_leaveTy h

end Moves

/-- A token that is not refused moves a reading by one of the rules. -/
theorem moves_of_step {e : Entry} {r r' : Reading} {tok : Token} (h : r.step e tok = .ok r') :
    Moves e tok r.items r.phase r' := by
  obtain ⟨items, phase⟩ := r
  unfold Reading.step at h
  cases phase with
  | item =>
    obtain ⟨phase, begins, same⟩ := Except.bind_eq_ok_iff.1 h
    cases same
    exact .begin (begins_of_beginItem begins)
  | name before word =>
    dsimp only at h
    split at h
    next lexeme =>
      cases h
      exact .signature lexeme
    next lexeme =>
      split at h
      · cases h
        exact .functor rfl lexeme
      · cases h
    · split at h
      · exact .name rfl (moves_of_operate h)
      · cases h
  | keyword before start =>
    dsimp only at h
    split at h
    next lexeme =>
      split at h
      · cases h
      next other =>
        cases h
        rw [not_or] at other
        exact .keyword lexeme other.1 other.2
    · cases h
  | functorName before start word =>
    dsimp only at h
    split at h
    next lexeme =>
      cases h
      exact .functorName lexeme
    · cases h
  | operand goal outer here =>
    dsimp only at h
    split at h
    next lexeme =>
      split at h
      · cases h
      next other =>
        cases h
        rw [not_or] at other
        exact .word lexeme other.1 other.2
    next lexeme =>
      cases h
      exact .paren lexeme
    · cases h
  | operator goal outer here x stop => exact moves_of_operate h
  | tyOperand name outer here fresh => exact moves_of_operandTy h
  | tyOperator name outer here t bare => exact moves_of_operateTy h

section Soundness

variable {e : Entry} {tok : Token} {items : List Item} {phase : Phase} {r : Reading}

theorem beginItem_of_begins {before : List Construct} (h : Begins e before tok phase) :
    e.beginItem before tok = .ok phase := by
  cases h with
  | keyword program lexeme | paren program lexeme =>
    simp only [Entry.beginItem, program, lexeme]
  | name other lexeme ne_functor ne_o =>
    unfold Entry.beginItem
    split <;> simp_all

/-- A token that begins an item does not belong to the head of a declaration. -/
theorem Begins.ne {before : List Construct} (h : Begins e before tok phase) :
    tok.lexeme ≠ .declares ∧ tok.lexeme ≠ .equals := by
  cases h <;> simp_all

theorem operate_of_moves {goal : Goal} {outer : List Waiting} {here : Waiting} {x : Expr}
    {stop : Position} (h : Moves e tok items (.operator goal outer here x stop) r) :
    Phase.operate e items goal outer here x stop tok = .ok r ∧
      tok.lexeme ≠ .declares ∧ tok.lexeme ≠ .equals := by
  unfold Phase.operate
  cases h with
  | times lexeme | close lexeme => simp [lexeme]
  | after lexeme => rcases lexeme with lexeme | lexeme <;> simp [lexeme]
  | complete begins =>
    refine ⟨?_, begins.ne⟩
    have begun := beginItem_of_begins begins
    cases begins with
    | keyword program lexeme | paren program lexeme =>
      simp only [lexeme, begun]
      rfl
    | name other lexeme ne_functor ne_o =>
      simp_all
      rfl

/-- The rules do not overlap: what one of them says is what the reader does. -/
theorem step_of_moves (h : Moves e tok items phase r) :
    Reading.step e ⟨items, phase⟩ tok = .ok r := by
  unfold Reading.step
  cases h with
  | begin begins =>
    simp only [beginItem_of_begins begins]
    rfl
  | signature lexeme | functorName lexeme | paren lexeme => simp only [lexeme]
  | functor program lexeme => simp only [lexeme, program]
  | name program moves =>
    obtain ⟨step, ne_declares, ne_equals⟩ := operate_of_moves moves
    subst program
    dsimp only
    split
    · contradiction
    · contradiction
    · exact step
  | keyword lexeme ne_functor ne_o | word lexeme ne_functor ne_o =>
    simp [lexeme, ne_functor, ne_o]
  | times lexeme => exact (operate_of_moves (.times lexeme)).1
  | after lexeme => exact (operate_of_moves (.after lexeme)).1
  | close lexeme => exact (operate_of_moves (.close lexeme)).1
  | complete begins => exact (operate_of_moves (.complete begins)).1
  | tyWord lexeme | tyParen lexeme | tyUnit lexeme => simp [Phase.operandTy, lexeme]
  | tyTimes lexeme | tyArrow lexeme | tyClose lexeme | tyBracket lexeme | tyComma lexeme
  | tyArguments lexeme => simp [Phase.operateTy, lexeme]
  | tyComplete begins =>
    have begun := beginItem_of_begins begins
    cases begins with
    | keyword program lexeme | paren program lexeme =>
      simp only [Phase.operateTy, Phase.leaveTy, lexeme, begun]
      rfl
    | name other lexeme ne_functor ne_o =>
      simp only [Phase.operateTy, Phase.leaveTy, lexeme, begun]
      rfl

end Soundness

/-- The end of a text completes the item in progress. -/
theorem finishes_of_finish {e : Entry} {r : Reading} {p : Position} {items : List Item}
    (h : r.finish e p = .ok items) :
    ∃ last, Finishes p r.phase last ∧ items = r.items.reverse ++ last := by
  obtain ⟨done, phase⟩ := r
  cases phase with
  | item =>
    cases h
    exact ⟨[], .item, (List.append_nil _).symm⟩
  | name before word =>
    cases e with
    | program =>
      cases h
      exact ⟨_, .name, List.reverse_cons⟩
    | signatures => cases h
    | expression => cases h
  | keyword => cases h
  | functorName => cases h
  | operand => cases h
  | operator goal outer here x stop =>
    cases outer with
    | nil =>
      cases h
      exact ⟨_, .expression, List.reverse_cons⟩
    | cons up rest => cases h
  | tyOperand => cases h
  | tyOperator name outer here t bare =>
    cases outer with
    | nil =>
      cases h
      exact ⟨_, .signature, List.reverse_cons⟩
    | cons up rest => cases h

theorem finish_of_finishes {r : Reading} {p : Position} {last : List Item}
    (h : Finishes p r.phase last) : r.finish .program p = .ok (r.items.reverse ++ last) := by
  obtain ⟨items, phase⟩ := r
  cases h with
  | item => exact congrArg Except.ok (List.append_nil _).symm
  | name | expression | signature => exact congrArg Except.ok List.reverse_cons

/-- What holds of the tokens where reading begins, and of those that are left after each of them,
holds of the tokens that are left where reading has come to. -/
theorem run_spec {e : Entry} {P : Reading → List Token → Prop}
    (move : ∀ {r tok tokens r'}, P r (tok :: tokens) → Moves e tok r.items r.phase r' →
      P r' tokens) {tokens rest : List Token} {r r' : Reading} (held : P r (tokens ++ rest))
    (run : tokens.foldlM (Reading.step e) r = .ok r') : P r' rest := by
  induction tokens generalizing r with
  | nil =>
    cases run
    exact held
  | cons tok tokens ih =>
    rw [List.foldlM_cons] at run
    obtain ⟨middle, first, later⟩ := Except.bind_eq_ok_iff.1 run
    exact ih (move held (moves_of_step first)) later

/-- What holds of the tokens of a text where reading begins, and of the tokens that are left after
each of them, holds at the end of the text. -/
theorem read_spec {e : Entry} {text : String} {items : List Item} (h : read e text = .ok items)
    {P : Reading → List Token → Prop} (start : ∀ p, P ⟨[], e.start p⟩ (tokenize text).list)
    (move : ∀ {r tok tokens r'}, P r (tok :: tokens) → Moves e tok r.items r.phase r' →
      P r' tokens) :
    ∃ r last, P r [] ∧ Finishes (tokenize text).stop r.phase last ∧
      items = r.items.reverse ++ last := by
  obtain ⟨r, run, finishes⟩ := Except.bind_eq_ok_iff.1 h
  obtain ⟨last, ends, same⟩ := finishes_of_finish finishes
  refine ⟨r, last, run_spec move ?_ run, ends, same⟩
  rw [List.append_nil]
  exact start _

end Taskflow.Grammar
