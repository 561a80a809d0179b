import Taskflow.Proofs.Grammar.Acceptance
import Taskflow.Proofs.Grammar.SignatureFiles

/-!
# What a text can be read as

A text is read as a program, as signatures or as one expression alone.  `Entry.Admits` says which
sources that leaves, and for each of the three the reader accepts the texts of these sources and no
others (`exists_read_iff_admits`).
-/

namespace Taskflow.Grammar

/-- Whether a source is of the kind that a text is read as. -/
def Entry.Admits : Entry → List Sentence → Prop
  | .program, _ => True
  | .signatures, source => ∀ s ∈ source, s.item.IsSignature
  | .expression, source => ∃ body span, source = [.expression body span]

/-! ## One expression alone -/

def Goal.IsRoot : Goal → Prop
  | .root _ => True
  | .body .. => False

/-- Where the reader can be in a text that is one expression. -/
def Phase.InExpression : Phase → Prop
  | .operand goal _ _ | .operator goal _ _ _ _ => goal.IsRoot
  | _ => False

/-- No token ends an expression that stands alone. -/
theorem Moves.lone {tok : Token} {items : List Item} {phase : Phase} {r : Reading}
    (h : Moves .expression tok items phase r) (inside : phase.InExpression) :
    r.phase.InExpression ∧ r.items = items := by
  cases h with
  | word | paren | times | after | close => exact ⟨inside, rfl⟩
  | complete begins =>
    cases begins with
    | keyword program | paren program => cases program
    | name other => exact (other rfl).elim
  | _ => exact inside.elim

/-- A text that is read as an expression has one item. -/
theorem exists_of_read_expression {text : String} {items : List Item}
    (h : read .expression text = .ok items) : ∃ body span, items = [.expression body span] := by
  obtain ⟨r, last, ⟨inside, empty⟩, finishes, rfl⟩ := read_spec h
    (P := fun r _ ↦ r.phase.InExpression ∧ r.items = [])
    (fun _ ↦ ⟨trivial, rfl⟩)
    fun before moves ↦ by
      obtain ⟨inside, same⟩ := moves.lone before.1
      exact ⟨inside, same.trans before.2⟩
  obtain ⟨items, phase⟩ := r
  obtain rfl : items = [] := empty
  cases finishes with
  | @expression goal here x stop =>
    cases goal with
    | root start => exact ⟨_, _, rfl⟩
    | body => exact inside.elim
  | item | name | signature => exact inside.elim

/-! ## Signatures alone -/

/-- The clauses of a reading of signatures that another one may follow, the latest first. -/
inductive Declared : Reading → List Clause → Prop
  | start : Declared ⟨[], .item⟩ []
  | type {items word here t bare} :
    Declared ⟨items, .tyOperator word [] here t bare⟩
      (.signature word.text (here.value t) :: items.map Item.clause)

namespace Declared

variable {r : Reading} {cs : List Clause}

/-- A name completes the signature in progress. -/
theorem step (h : Declared r cs) {name : String} (isName : IsName name) (start stop : Position) :
    ∃ items before, items.map Item.clause = cs ∧
      r.step .signatures ⟨.word name, start, stop⟩ =
        .ok ⟨items, .name before ⟨name, start, stop⟩⟩ := by
  have begins (before : List Construct) :
      Begins .signatures before ⟨.word name, start, stop⟩ (.name before ⟨name, start, stop⟩) :=
    .name nofun rfl isName.ne_functor isName.ne_o
  cases h with
  | start => exact ⟨_, _, rfl, step_of_moves (.begin (begins []))⟩
  | type => exact ⟨_, _, rfl, step_of_moves (.tyComplete (begins _))⟩

/-- Signatures are read one after the other. -/
theorem accepts {source : List Sentence} (admits : Entry.signatures.Admits source)
    (h : Declared r cs) (q : Position) :
    Accepts .signatures (Declared · ((source.map (·.item.clause)).reverse ++ cs)) r q
      (lexemesOf source) := by
  induction source generalizing r cs q with
  | nil => exact .nil h
  | cons s source ih =>
    obtain ⟨first, rest⟩ := List.forall_mem_cons.1 admits
    cases s with
    | signature name isName ty span =>
      rw [lexemesOf, List.flatMap_cons, List.map_cons, List.reverse_cons, List.append_assoc]
      refine .cons fun start stop _ ↦ ?_
      obtain ⟨items, before, rfl, named⟩ := h.step isName start stop
      refine ⟨_, named, .cons fun start' stop' _ ↦ ⟨_, rfl, ?_⟩⟩
      refine (ty.reads .signatures items _ [] .nothing false stop' rfl).append ?_
      rintro r' q' ⟨here, x, bare, rfl, same⟩
      refine ih rest ?_ q'
      show Declared _ (.signature name.text ty.value :: _)
      rw [show ty.value = here.value x from same.symm]
      exact .type
    | functor | expression => exact first.elim

/-- The end of the text completes the last signature. -/
theorem finish (h : Declared r cs) (p : Position) :
    ∃ items, r.finish .signatures p = .ok items ∧ items.map Item.clause = cs.reverse := by
  cases h with
  | start => exact ⟨[], rfl, rfl⟩
  | type => exact ⟨_, rfl, by simp; rfl⟩

end Declared

/-! ## All texts -/

variable {e : Entry} {text : String}

/-- A text that is read is the text of a source of the right kind. -/
theorem exists_admitted_of_read {items : List Item} (h : read e text = .ok items) :
    ∃ source, e.Admits source ∧ source.map Sentence.item = items ∧
      Snug (lexemesOf source) text.toList := by
  obtain ⟨source, rfl, snug⟩ := exists_source_of_read h
  refine ⟨source, ?_, rfl, snug⟩
  cases e with
  | program => trivial
  | signatures =>
    intro s hs
    exact (read_program_of_read_signatures h).2 _ (List.mem_map_of_mem hs)
  | expression =>
    obtain ⟨body, span, only⟩ := exists_of_read_expression h
    obtain ⟨s, rfl, item⟩ := List.map_eq_singleton_iff.1 only
    cases s with
    | expression body span => exact ⟨body, span, rfl⟩
    | signature | functor => cases item

/-- The text of a source is read as what the source is. -/
theorem exists_read_of_admits {source : List Sentence} (admits : e.Admits source)
    (snug : Snug (lexemesOf source) text.toList) :
    ∃ items, read e text = .ok items ∧ items.map Item.clause = source.map (·.item.clause) := by
  have lexemes : (tokenize text).list.map Token.lexeme = lexemesOf source :=
    snug.laid.map_lexeme_scan .origin
  have touches : Touches .origin (tokenize text).list := snug.touches .origin
  cases e with
  | program => exact exists_read_of_snug snug
  | signatures =>
    obtain ⟨r, taken, declared⟩ :=
      Declared.start.accepts admits .origin _ lexemes touches
    obtain ⟨items, finishes, clauses⟩ := declared.finish (tokenize text).stop
    refine ⟨items, Except.bind_eq_ok_iff.2 ⟨r, taken, finishes⟩, ?_⟩
    simpa using clauses
  | expression =>
    obtain ⟨body, span, rfl⟩ := admits
    have only : (tokenize text).list.map Token.lexeme = body.lexemes :=
      lexemes.trans (List.append_nil _)
    obtain ⟨r, taken, here, y, stop, rfl, same⟩ :=
      body.takes .expression [] (.root _) (tokenize text).list only
    refine ⟨_, Except.bind_eq_ok_iff.2 ⟨_, taken, rfl⟩, ?_⟩
    simp only [List.reverse_singleton, List.map_singleton, Goal.clause_item, Goal.clause, same]
    rfl

/-- The reader accepts the texts of the sources of the right kind, and no others. -/
theorem exists_read_iff_admits :
    (∃ items, read e text = .ok items) ↔
      ∃ source, e.Admits source ∧ Snug (lexemesOf source) text.toList := by
  constructor
  · rintro ⟨items, h⟩
    obtain ⟨source, admits, -, snug⟩ := exists_admitted_of_read h
    exact ⟨source, admits, snug⟩
  · rintro ⟨source, admits, snug⟩
    obtain ⟨items, h, -⟩ := exists_read_of_admits admits snug
    exact ⟨items, h⟩

end Taskflow.Grammar
