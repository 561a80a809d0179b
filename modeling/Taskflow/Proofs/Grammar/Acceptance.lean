import Taskflow.Proofs.Grammar.Derivation
import Taskflow.Proofs.Grammar.Spelling

/-!
# Every derivation is read

The text of a source, in any layout, is read as items that say what the source says
(`exists_read_of_snug`).  Together with `exists_source_of_read` this says that the reader accepts
the texts of the grammar and no others.

An expression that is derived is spelled, so for expressions this is `Spells.takes`.  For types the
same induction is made on the derivation, with one more condition on the tokens: arguments touch
their name.
-/

namespace Taskflow.Grammar

/-! ## Reading lexemes of which some touch -/

/-- Whether a reading takes all tokens with the given lexemes in which brackets touch what is in
front of them, and what is true of it then.  The token before the first one ends at `q`. -/
def Accepts (e : Entry) (Q : Reading → Prop) (r : Reading) (q : Position) (ls : List Lexeme) :
    Prop :=
  ∀ toks : List Token, toks.map Token.lexeme = ls → Touches q toks →
    ∃ r', toks.foldlM (Reading.step e) r = .ok r' ∧ Q r'

namespace Accepts

variable {e : Entry} {Q Q' : Reading → Prop} {r : Reading} {q : Position} {l : Lexeme}
  {ls rs : List Lexeme}

theorem of_takes (h : Takes e Q r ls) : Accepts e Q r q ls := fun toks lexemes _ ↦ h toks lexemes

theorem nil (h : Q r) : Accepts e Q r q [] := of_takes (.nil h)

theorem cons (h : ∀ start stop, (l = .openBracket → start = q) →
    ∃ r', r.step e ⟨l, start, stop⟩ = .ok r' ∧ Accepts e Q r' stop ls) :
    Accepts e Q r q (l :: ls) := by
  intro toks lexemes touches
  obtain ⟨tok, toks, rfl, rfl, rest⟩ := List.map_eq_cons_iff.1 lexemes
  obtain ⟨r', step, accepts⟩ := h tok.start tok.stop touches.1
  obtain ⟨r'', reads, holds⟩ := accepts toks rest touches.2
  exact ⟨r'', Except.bind_eq_ok_iff.2 ⟨r', step, reads⟩, holds⟩

theorem mono (h : Accepts e Q r q ls) (weaker : ∀ r', Q r' → Q' r') : Accepts e Q' r q ls := by
  intro toks lexemes touches
  obtain ⟨r', reads, holds⟩ := h toks lexemes touches
  exact ⟨r', reads, weaker r' holds⟩

/-- Lexemes are taken one part after the other. -/
theorem append (first : Accepts e Q r q ls) (second : ∀ r' q', Q r' → Accepts e Q' r' q' rs) :
    Accepts e Q' r q (ls ++ rs) := by
  intro toks lexemes touches
  obtain ⟨front, back, rfl, rfl, rfl⟩ := List.map_eq_append_iff.1 lexemes
  obtain ⟨touchesFront, touchesBack⟩ := touches_append.1 touches
  obtain ⟨r', reads, holds⟩ := first front rfl touchesFront
  obtain ⟨r'', reads', holds'⟩ := second r' _ holds back rfl touchesBack
  refine ⟨r'', ?_, holds'⟩
  rw [List.foldlM_append]
  exact Except.bind_eq_ok_iff.2 ⟨r', reads, reads'⟩

end Accepts

/-! ## Types -/

/-- Whether the reader takes lexemes as what they stand for: an atom as an operand, a product where
no left side waits, a whole type where domains may wait, and arguments behind earlier ones. -/
def TyLevel.Reads (e : Entry) (ls : List Lexeme) : (l : TyLevel) → l.Meaning → Prop
  | .atom, t => ∀ items word outer here fresh q,
    Accepts e (fun r ↦ ∃ bare, r = ⟨items, .tyOperator word outer here t bare⟩)
      ⟨items, .tyOperand word outer here fresh⟩ q ls
  | .power, t => ∀ items word outer here fresh q, here.multiplied = none →
    Accepts e (fun r ↦ ∃ here' x bare, r = ⟨items, .tyOperator word outer here' x bare⟩ ∧
        here'.domains = here.domains ∧ here'.power x = t)
      ⟨items, .tyOperand word outer here fresh⟩ q ls
  | .type, t => ∀ items word outer here fresh q, here.multiplied = none →
    Accepts e (fun r ↦ ∃ here' x bare, r = ⟨items, .tyOperator word outer here' x bare⟩ ∧
        here'.value x = here.domains.foldl (fun codomain d ↦ .fn d codomain) t)
      ⟨items, .tyOperand word outer here fresh⟩ q ls
  | .arguments, ts => ∀ items word up name earlier rest q,
    Accepts e (fun r ↦ ∃ earlier' here' x bare,
        r = ⟨items, .tyOperator word ((up, .arguments name earlier') :: rest) here' x bare⟩ ∧
          (here'.value x :: earlier').reverse = earlier.reverse ++ ts)
      ⟨items, .tyOperand word ((up, .arguments name earlier) :: rest) .nothing false⟩ q ls

/-- A derivation of a type is read as what it stands for. -/
theorem TyPhrase.reads {l : TyLevel} (t : TyPhrase l) (e : Entry) :
    l.Reads e t.lexemes t.value := by
  induction t with
  | word text isWord =>
    intro items word outer here fresh q
    exact .cons fun start stop _ ↦ ⟨_, rfl, .nil ⟨_, rfl⟩⟩
  | applied name isWord arguments ih =>
    intro items word outer here fresh q
    refine .cons fun start stop _ ↦ ⟨_, rfl, .cons fun start' stop' touches ↦
      ⟨_, if_pos (touches rfl).symm, ?_⟩⟩
    refine (ih items word here name [] outer stop').append ?_
    rintro r' q' ⟨earlier, here', x, bare, rfl, same⟩
    refine .cons fun start stop _ ↦ ⟨_, rfl, .nil ⟨none, ?_⟩⟩
    rw [same]
    rfl
  | unit =>
    intro items word outer here fresh q
    exact .cons fun start stop _ ↦ ⟨_, rfl, .cons fun start stop _ ↦ ⟨_, rfl, .nil ⟨_, rfl⟩⟩⟩
  | parens inner ih =>
    intro items word outer here fresh q
    refine .cons fun start stop _ ↦ ⟨_, rfl, ?_⟩
    refine (ih items word ((here, .paren) :: outer) .nothing true stop rfl).append ?_
    rintro r' q' ⟨here', x, bare, rfl, same⟩
    refine .cons fun start stop _ ↦ ⟨_, rfl, .nil ⟨none, ?_⟩⟩
    rw [same]
    rfl
  | atom t ih =>
    intro items word outer here fresh q none
    refine (ih items word outer here fresh q).mono ?_
    rintro r' ⟨bare, rfl⟩
    exact ⟨here, _, bare, rfl, rfl, by rw [WaitingTy.power, none]; rfl⟩
  | times left right ihLeft ihRight =>
    intro items word outer here fresh q none
    refine (ihLeft items word outer here fresh q none).append ?_
    rintro r' q' ⟨here', x, bare, rfl, domains, same⟩
    refine .cons fun start stop _ ↦ ⟨_, rfl, ?_⟩
    refine (ihRight items word outer (here'.times x) false stop).mono ?_
    rintro r'' ⟨bare', rfl⟩
    refine ⟨_, _, bare', rfl, domains, ?_⟩
    rw [TyPhrase.value, ← same]
    rfl
  | power t ih =>
    intro items word outer here fresh q none
    refine (ih items word outer here fresh q none).mono ?_
    rintro r' ⟨here', x, bare, rfl, domains, same⟩
    refine ⟨here', x, bare, rfl, ?_⟩
    rw [WaitingTy.value, domains, same]
    rfl
  | arrow domain codomain ihDomain ihCodomain =>
    intro items word outer here fresh q none
    refine (ihDomain items word outer here fresh q none).append ?_
    rintro r' q' ⟨here', x, bare, rfl, domains, same⟩
    refine .cons fun start stop _ ↦ ⟨_, rfl, ?_⟩
    refine (ihCodomain items word outer (here'.thenTo x) false stop rfl).mono ?_
    rintro r'' ⟨here'', y, bare', rfl, same'⟩
    refine ⟨here'', y, bare', rfl, ?_⟩
    rw [same', WaitingTy.thenTo, List.foldl_cons, domains, same]
    rfl
  | last t ih =>
    intro items word up name earlier rest q
    refine (ih items word _ .nothing false q rfl).mono ?_
    rintro r' ⟨here', x, bare, rfl, same⟩
    refine ⟨earlier, here', x, bare, rfl, ?_⟩
    rw [same, List.reverse_cons]
    rfl
  | more t more ih ihMore =>
    intro items word up name earlier rest q
    refine (ih items word _ .nothing false q rfl).append ?_
    rintro r' q' ⟨here', x, bare, rfl, same⟩
    refine .cons fun start stop _ ↦ ⟨_, rfl, ?_⟩
    refine (ihMore items word up name (here'.value x :: earlier) rest stop).mono ?_
    rintro r'' ⟨earlier', here'', y, bare', rfl, same'⟩
    refine ⟨earlier', here'', y, bare', rfl, ?_⟩
    rw [same', List.reverse_cons, same, List.append_assoc]
    rfl

/-! ## Expressions -/

/-- Whether a spelling of this shape is derived at a level. -/
def Level.Admits : Level → Shape → Prop
  | .term, s => s = .closed
  | .factor, s => s ≠ .composition
  | .expression, _ => True

theorem Sign.isCircle (sign : Sign) : sign.lexeme.IsCircle := by
  cases sign with
  | circle => exact .inl rfl
  | letter => exact .inr rfl

namespace Phrase

variable {l : Level}

/-- What is derived is spelled. -/
theorem exists_spells (x : Phrase l) : ∃ s, l.Admits s ∧ Spells x.tree.bare s x.lexemes := by
  induction x with
  | name word isName => exact ⟨.closed, rfl, .name⟩
  | parens inner ih =>
    obtain ⟨s, -, spells⟩ := ih
    exact ⟨.closed, rfl, .parens spells⟩
  | term x ih =>
    obtain ⟨s, rfl, spells⟩ := ih
    exact ⟨.closed, nofun, spells⟩
  | times left right ihLeft ihRight =>
    obtain ⟨s, other, spellsLeft⟩ := ihLeft
    obtain ⟨s', closed, spellsRight⟩ := ihRight
    exact ⟨.product, nofun, .product spellsLeft other spellsRight closed⟩
  | factor x ih =>
    obtain ⟨s, -, spells⟩ := ih
    exact ⟨s, trivial, spells⟩
  | after outer sign inner ihOuter ihInner =>
    obtain ⟨s, -, spellsOuter⟩ := ihOuter
    obtain ⟨s', other, spellsInner⟩ := ihInner
    exact ⟨.composition, trivial, .composition spellsOuter sign.isCircle spellsInner other⟩

theorem isName_of_mem_references (x : Phrase l) : ∀ name ∈ x.tree.bare.references, IsName name := by
  induction x with
  | name word isName =>
    intro name mem
    obtain rfl := List.mem_singleton.1 mem
    exact isName
  | parens _ ih | term _ ih | factor _ ih => exact ih
  | times _ _ ihLeft ihRight | after _ _ _ ihLeft ihRight =>
    intro name mem
    exact (List.mem_append.1 mem).elim (ihLeft name) (ihRight name)

/-- An expression begins with a name or a parenthesis. -/
theorem lexemes_eq (x : Phrase l) :
    (∃ ls, x.lexemes = .openParen :: ls) ∨
      ∃ name ls, IsName name ∧ x.lexemes = .word name :: ls := by
  induction x with
  | name word isName => exact .inr ⟨_, _, isName, rfl⟩
  | parens => exact .inl ⟨_, rfl⟩
  | term _ ih | factor _ ih => exact ih
  | times _ right ih | after _ _ right ih =>
    rcases ih with ⟨ls, first⟩ | ⟨name, ls, isName, first⟩
    · exact .inl ⟨_, by rw [lexemes, first]; rfl⟩
    · exact .inr ⟨name, _, isName, by rw [lexemes, first]; rfl⟩

/-- No head of a declaration is part of an expression. -/
theorem ne_of_mem_lexemes (x : Phrase l) : ∀ l ∈ x.lexemes, l ≠ .declares ∧ l ≠ .equals := by
  induction x with
  | name => simp [lexemes]
  | parens _ ih => simpa [lexemes, or_imp, forall_and] using ih
  | term _ ih | factor _ ih => exact ih
  | times _ _ ihLeft ihRight =>
    intro l mem
    rcases List.mem_append.1 mem with mem | mem
    · exact ihLeft l mem
    rcases List.mem_cons.1 mem with rfl | mem
    · exact ⟨by decide, by decide⟩
    · exact ihRight l mem
  | after _ sign _ ihLeft ihRight =>
    intro l mem
    rcases List.mem_append.1 mem with mem | mem
    · exact ihLeft l mem
    rcases List.mem_cons.1 mem with rfl | mem
    · cases sign <;> exact ⟨by decide, by decide⟩
    · exact ihRight l mem

/-- An expression is read where an operand may stand. -/
theorem takes (x : Phrase .expression) (e : Entry) (items : List Item) (goal : Goal) :
    Takes e (fun r ↦ ∃ here y stop, r = ⟨items, .operator goal [] here y stop⟩ ∧
      (here.value y).bare = x.tree.bare) ⟨items, .operand goal [] .nothing⟩ x.lexemes := by
  obtain ⟨s, -, spells⟩ := x.exists_spells
  refine (spells.takes x.isName_of_mem_references Shape.suits_nothing).mono ?_
  rintro r ⟨here, y, stop, rfl, reads⟩
  exact ⟨here, y, stop, rfl, by simpa using reads.value⟩

end Phrase

/-! ## Items -/

/-- A name that no head of a declaration follows is the first operand of an expression. -/
theorem Reading.step_name {items : List Item} {before : List Construct} {word : Word} {tok : Token}
    (other : tok.lexeme ≠ .declares ∧ tok.lexeme ≠ .equals) :
    Reading.step .program ⟨items, .name before word⟩ tok =
      Reading.step .program
        ⟨items, .operator (.root word.span.start) [] .nothing (.name word) word.span.stop⟩ tok := by
  obtain ⟨lexeme, start, stop⟩ := tok
  cases lexeme with
  | declares => exact (other.1 rfl).elim
  | equals => exact (other.2 rfl).elim
  | _ => rfl

/-- Between two items, an expression is read as an item. -/
theorem Ready.takes {r : Reading} {cs : List Clause} (ready : Ready r cs)
    (x : Phrase .expression) :
    Takes .program (Ready · (.root x.tree.bare :: cs)) r x.lexemes := by
  intro toks lexemes
  rcases x.lexemes_eq with ⟨ls, first⟩ | ⟨name, ls, isName, first⟩
  · -- the parenthesis is read as it is where an operand stands
    obtain ⟨⟨_, start, stop⟩, rest, rfl, rfl, -⟩ := List.map_eq_cons_iff.1 (lexemes.trans first)
    obtain ⟨items, before, rfl, step⟩ := ready.step ⟨.openParen, start, stop⟩ trivial
    obtain ⟨r', reads, here, y, stop', rfl, same⟩ := x.takes .program items (.root start) _ lexemes
    refine ⟨⟨items, .operator (.root start) [] here y stop'⟩, ?_, ?_⟩
    · rw [List.foldlM_cons, step]
      exact reads
    · rw [← same]
      exact .expression
  · -- the name may begin any item; what follows it decides
    obtain ⟨⟨_, start, stop⟩, rest, rfl, rfl, tail⟩ := List.map_eq_cons_iff.1 (lexemes.trans first)
    obtain ⟨items, before, rfl, step⟩ := ready.step ⟨.word name, start, stop⟩ isName.ne_o
    rw [Entry.beginItem_of_isName isName] at step
    obtain ⟨r', reads, here, y, stop', rfl, same⟩ := x.takes .program items (.root start) _ lexemes
    have named : Reading.step .program ⟨items, .operand (.root start) [] .nothing⟩
        ⟨.word name, start, stop⟩ =
          .ok ⟨items, .operator (.root start) [] .nothing (.name ⟨name, start, stop⟩) stop⟩ :=
      if_neg (not_or.2 ⟨isName.ne_functor, isName.ne_o⟩)
    rw [List.foldlM_cons, named] at reads
    cases rest with
    | nil =>
      refine ⟨⟨items, .name before ⟨name, start, stop⟩⟩, by rw [List.foldlM_cons, step]; rfl, ?_⟩
      cases reads
      rw [← same]
      exact .name
    | cons tok rest =>
      have mem : tok.lexeme ∈ x.lexemes := by
        rw [← lexemes]
        exact List.mem_map_of_mem (List.mem_cons_of_mem _ List.mem_cons_self)
      refine ⟨⟨items, .operator (.root start) [] here y stop'⟩, ?_, ?_⟩
      · rw [List.foldlM_cons, step]
        show List.foldlM (Reading.step .program)
          (⟨items, .name before ⟨name, start, stop⟩⟩ : Reading) (tok :: rest) = _
        rw [List.foldlM_cons, Reading.step_name (x.ne_of_mem_lexemes _ mem), ← List.foldlM_cons]
        exact reads
      · rw [← same]
        exact .expression

/-- Between two items, a sentence is read as what it says. -/
theorem Ready.accepts {r : Reading} {cs : List Clause} (ready : Ready r cs) (s : Sentence)
    (q : Position) : Accepts .program (Ready · (s.item.clause :: cs)) r q s.lexemes := by
  cases s with
  | signature name isName ty span =>
    refine .cons fun start stop _ ↦ ?_
    obtain ⟨items, before, rfl, step⟩ := ready.step ⟨.word name.text, start, stop⟩ isName.ne_o
    rw [Entry.beginItem_of_isName isName] at step
    refine ⟨_, step, .cons fun start' stop' _ ↦ ⟨_, rfl, ?_⟩⟩
    refine (ty.reads .program items _ [] .nothing false stop' rfl).mono ?_
    rintro r' ⟨here, x, bare, rfl, same⟩
    show Ready _ (.signature name.text ty.value :: _)
    rw [show ty.value = here.value x from same.symm]
    exact .type
  | functor keyword name isName body span =>
    -- whatever stands in front of the body, the body is read in one way
    have bodied (items : List Item) (start : Position) (word : Word) (same : word.text = name.text)
        (q' : Position) :
        Accepts .program (Ready · (.functor name.text body.tree.bare :: items.map Item.clause))
          ⟨items, .operand (.body start word) [] .nothing⟩ q' body.lexemes := by
      refine .of_takes ((body.takes .program items (.body start word)).mono ?_)
      rintro r' ⟨here, y, stop, rfl, value⟩
      rw [← value, ← same]
      exact .expression
    cases keyword with
    | false =>
      refine .cons fun start stop _ ↦ ?_
      obtain ⟨items, before, rfl, step⟩ := ready.step ⟨.word name.text, start, stop⟩ isName.ne_o
      rw [Entry.beginItem_of_isName isName] at step
      exact ⟨_, step, .cons fun start' stop' _ ↦ ⟨_, rfl,
        bodied items start ⟨name.text, start, stop⟩ rfl stop'⟩⟩
    | true =>
      refine .cons fun start stop _ ↦ ?_
      obtain ⟨items, before, rfl, step⟩ := ready.step ⟨.word "functor", start, stop⟩
        (show "functor" ≠ "o" by decide)
      have named (p p' : Position) :
          Reading.step .program ⟨items, .keyword before start⟩ ⟨.word name.text, p, p'⟩ =
            .ok ⟨items, .functorName before start ⟨name.text, p, p'⟩⟩ :=
        if_neg (not_or.2 ⟨isName.ne_functor, isName.ne_o⟩)
      exact ⟨_, step, .cons fun start' stop' _ ↦ ⟨_, named start' stop',
        .cons fun start'' stop'' _ ↦ ⟨_, rfl,
          bodied items start ⟨name.text, start', stop'⟩ rfl stop''⟩⟩⟩
  | expression body span => exact .of_takes (ready.takes body)

theorem Ready.accepts_lexemesOf {r : Reading} {cs : List Clause} (ready : Ready r cs)
    (source : List Sentence) (q : Position) :
    Accepts .program (Ready · ((source.map (·.item.clause)).reverse ++ cs)) r q
      (lexemesOf source) := by
  induction source generalizing r cs q with
  | nil => exact .nil ready
  | cons s source ih =>
    rw [lexemesOf, List.flatMap_cons, List.map_cons, List.reverse_cons, List.append_assoc]
    exact (ready.accepts s q).append fun r' q' ready' ↦ ih ready' q'

/-- The text of a source is read as items that say what the source says. -/
theorem exists_read_of_snug {source : List Sentence} {text : String}
    (snug : Snug (lexemesOf source) text.toList) :
    ∃ items, read .program text = .ok items ∧
      items.map Item.clause = source.map (·.item.clause) := by
  have lexemes : (tokenize text).list.map Token.lexeme = lexemesOf source :=
    snug.laid.map_lexeme_scan .origin
  have touches : Touches .origin (tokenize text).list := snug.touches .origin
  obtain ⟨r, taken, ready⟩ := Ready.start.accepts_lexemesOf source .origin _ lexemes touches
  obtain ⟨items, finishes, clauses⟩ := ready.finish (tokenize text).stop
  refine ⟨items, Except.bind_eq_ok_iff.2 ⟨r, taken, finishes⟩, ?_⟩
  simpa using clauses

end Taskflow.Grammar
