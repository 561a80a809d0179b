import Taskflow.Proofs.Grammar.Reading

/-!
# Lines of a program

A clause is what an item says, without its place in a text.  Clauses that are written line after
line are read as items that say the same (`read_lines`).

An item is complete only when the reader sees a token that does not continue it.  So behind a line
its item is still in progress, and what matters is that the next line begins with a token that
starts another item, wherever the reader is: `Ready` says which clauses a reading has read, with
that of the item in progress, and `Ready.step` says what such a token does.
-/

namespace Taskflow.Grammar

/-- What an item says. -/
inductive Clause where
  | signature (name : String) (ty : Ty)
  | functor (name : String) (body : Node)
  | root (body : Node)
deriving DecidableEq, Repr

/-- An expression as texts have it, without places. -/
structure Plain (n : Node) : Prop where
  expr : n.IsExpr
  names : ∀ name ∈ n.references, IsName name
  bare : n.bare = n

namespace Clause

/-- The line for a clause. -/
def render : Clause → String
  | .signature name ty => name ++ " :: " ++ ty.render
  | .functor name body => "functor " ++ name ++ " = " ++ body.render
  | .root body => body.render

/-- Whether a clause can come from a text. -/
def Legible : Clause → Prop
  | .signature name ty => IsName name ∧ Readable ty
  | .functor name body => IsName name ∧ Plain body
  | .root body => Plain body

end Clause

@[simp] theorem Expr.bare_bare (x : Expr) : x.bare.bare = x.bare := by
  induction x <;> simp_all [Expr.bare, Node.bare]

theorem Expr.Legible.plain {x : Expr} (h : x.Legible) : Plain x.bare where
  expr := x.isExpr_bare
  names := by
    intro name mem
    rw [Expr.references_bare] at mem
    obtain ⟨w, hw, rfl⟩ := List.mem_map.1 mem
    exact h w hw
  bare := x.bare_bare

/-- What an item says. -/
def Item.clause : Item → Clause
  | .signature name ty _ => .signature name.text ty
  | .functor name body _ => .functor name.text body.bare
  | .expression body _ => .root body.bare

theorem Item.Legible.clause {i : Item} (h : i.Legible) : i.clause.Legible := by
  cases i with
  | signature name ty span => exact h
  | functor name body span => exact ⟨h.1, h.2.plain⟩
  | expression body span => exact Expr.Legible.plain h

/-- What an expression becomes. -/
def Goal.clause (g : Goal) (x : Expr) : Clause :=
  match g with
  | .root _ => .root x.bare
  | .body _ name => .functor name.text x.bare

@[simp] theorem Goal.clause_item (g : Goal) (here : Waiting) (x : Expr) (stop next : Position) :
    (g.item here x stop next).clause = g.clause (here.value x) := by
  cases g <;> rfl

/-! ## Between two items -/

/-- Whether a token cannot continue an item. -/
def Lexeme.Begins : Lexeme → Prop
  | .openParen => True
  | .word text => text ≠ "o"
  | _ => False

/-- The clauses of a reading that another item may follow, the latest first. -/
inductive Ready : Reading → List Clause → Prop
  | start : Ready ⟨[], .item⟩ []
  | name {items before word} :
    Ready ⟨items, .name before word⟩
      (.root (.literal 0 word.text .nowhere) :: items.map Item.clause)
  | expression {items goal here x stop} :
    Ready ⟨items, .operator goal [] here x stop⟩
      (goal.clause (here.value x) :: items.map Item.clause)
  | type {items word here t bare} :
    Ready ⟨items, .tyOperator word [] here t bare⟩
      (.signature word.text (here.value t) :: items.map Item.clause)

/-- At the outermost level a token that begins an item ends the expression before it. -/
theorem Phase.operate_eq {e : Entry} {items : List Item} {goal : Goal} {here : Waiting} {x : Expr}
    {stop : Position} {tok : Token} (h : tok.lexeme.Begins) :
    operate e items goal [] here x stop tok =
      e.beginItem continuations tok >>= fun phase ↦
        .ok ⟨goal.item here x stop tok.start :: items, phase⟩ := by
  obtain ⟨lexeme, start, stop'⟩ := tok
  cases lexeme with
  | openParen => rfl
  | word text =>
    unfold operate
    split <;> simp_all [Lexeme.Begins]
  | _ => exact h.elim

theorem Phase.operateTy_eq {e : Entry} {items : List Item} {name : Word} {here : WaitingTy}
    {t : Ty} {bare : Option (String × Position)} {tok : Token} (h : tok.lexeme.Begins) :
    operateTy e items name [] here t bare tok =
      e.beginItem (tyContinuations bare tok.start) tok >>= fun phase ↦
        .ok ⟨.signature name (here.value t) ⟨name.span.start, tok.start⟩ :: items, phase⟩ := by
  obtain ⟨lexeme, start, stop⟩ := tok
  cases lexeme with
  | openParen | word => rfl
  | _ => exact h.elim

namespace Ready

variable {r : Reading} {cs : List Clause}

/-- A token that begins an item completes the one in progress. -/
theorem step (h : Ready r cs) (tok : Token) (begins : tok.lexeme.Begins) :
    ∃ items before, items.map Item.clause = cs ∧
      r.step .program tok =
        Entry.program.beginItem before tok >>= fun phase ↦ .ok ⟨items, phase⟩ := by
  cases h with
  | start => exact ⟨[], [], rfl, rfl⟩
  | @name items before word =>
    have alone : Reading.step .program ⟨items, .name before word⟩ tok =
        Phase.operate .program items (.root word.span.start) [] .nothing (.name word)
          word.span.stop tok := by
      obtain ⟨lexeme, start, stop⟩ := tok
      cases lexeme with
      | openParen | word => rfl
      | _ => exact begins.elim
    exact ⟨_, _, rfl, alone.trans (Phase.operate_eq begins)⟩
  | expression => exact ⟨_, _, by simp, Phase.operate_eq begins⟩
  | type => exact ⟨_, _, rfl, Phase.operateTy_eq begins⟩

/-- The end of the text completes the item in progress. -/
theorem finish (h : Ready r cs) (p : Position) :
    ∃ items, r.finish .program p = .ok items ∧ items.map Item.clause = cs.reverse := by
  cases h with
  | start => exact ⟨[], rfl, rfl⟩
  | name => exact ⟨_, rfl, by simp; rfl⟩
  | expression => exact ⟨_, rfl, by simp⟩
  | type => exact ⟨_, rfl, by simp; rfl⟩

end Ready

/-! ## Lines -/

theorem isWord_functor : IsWord "functor" := ⟨by decide, List.all_eq_true.1 (by decide)⟩

theorem Entry.beginItem_of_isName {text : String} (h : IsName text) (before : List Construct)
    (p p' : Position) :
    Entry.program.beginItem before ⟨.word text, p, p'⟩ = .ok (.name before ⟨text, p, p'⟩) := by
  obtain ⟨-, ne_functor, ne_o⟩ := h
  unfold Entry.beginItem
  split <;> simp_all [Token.span]

namespace Completes

variable {Q : List Item → Prop} {r : Reading} {p : Position} {cs : List Char} {done : List Clause}

/-- A name is read as far as it goes, an operation from its first parenthesis on. -/
theorem root {body : Node} (plain : Plain body) (ready : Ready r done) (apart : Apart cs)
    (next : ∀ r' p', Ready r' (.root body :: done) → Completes .program Q r' p' cs) :
    Completes .program Q r p (body.render.toList ++ cs) := by
  -- where the reader is behind the first parenthesis, it is also in an expression that it reads
  -- from its beginning
  have parenthesis {text : List Char} (written : body.render.toList = '(' :: text) :
      Completes .program Q r p (body.render.toList ++ cs) := by
    obtain ⟨items, before, rfl, step⟩ :=
      ready.step ⟨.openParen, p, p.advance '('⟩ trivial
    have whole : Completes .program Q ⟨items, .operand (.root p) [] .nothing⟩ p
        ('(' :: (text ++ cs)) := by
      rw [← List.cons_append, ← written]
      refine isOperand_render plain.expr plain.names apart fun x stop p' hx ↦ next _ _ ?_
      rw [plain.bare] at hx
      exact hx ▸ .expression
    rw [written]
    exact .symbol rfl step ((symbol_iff rfl rfl).1 whole)
  cases body with
  | literal id name span =>
    have isName : IsName name := plain.names name (List.mem_singleton.2 rfl)
    obtain ⟨items, before, rfl, step⟩ :=
      ready.step ⟨.word name, p, p.advanceAll name.toList⟩ isName.ne_o
    rw [Entry.beginItem_of_isName isName] at step
    refine .word isName.word apart step (next _ _ ?_)
    rw [← plain.bare]
    exact .name
  | composition => exact parenthesis (by simp [Node.render]; rfl)
  | product => exact parenthesis (by simp [Node.render]; rfl)
  | functor => exact plain.expr.elim

/-- The line of a clause brings a reading from behind one item to behind the next. -/
theorem clause {c : Clause} (legible : c.Legible) (ready : Ready r done) (apart : Apart cs)
    (next : ∀ r' p', Ready r' (c :: done) → Completes .program Q r' p' cs) :
    Completes .program Q r p (c.render.toList ++ cs) := by
  cases c with
  | signature name ty =>
    obtain ⟨isName, readable⟩ := legible
    obtain ⟨items, before, rfl, step⟩ :=
      ready.step ⟨.word name, p, p.advanceAll name.toList⟩ isName.ne_o
    rw [Entry.beginItem_of_isName isName] at step
    simp only [Clause.render, String.toList_append, List.append_assoc]
    refine .word isName.word rfl step (.blank rfl (.declares rfl (.blank rfl ?_)))
    refine readable.isWritten.whole rfl apart fun here t bare p' value ↦ next _ _ ?_
    have : here.value t = ty := value
    exact this ▸ .type
  | functor name body =>
    obtain ⟨isName, plain⟩ := legible
    have written : (Clause.functor name body).render.toList ++ cs = "functor".toList ++
        ' ' :: (name.toList ++ ' ' :: '=' :: ' ' :: (body.render.toList ++ cs)) := by
      simp [Clause.render]
    obtain ⟨items, before, rfl, step⟩ :=
      ready.step ⟨.word "functor", p, p.advanceAll "functor".toList⟩
        (show "functor" ≠ "o" by decide)
    have named (start q q' : Position) :
        Reading.step .program ⟨items, .keyword before start⟩ ⟨.word name, q, q'⟩ =
          .ok ⟨items, .functorName before start ⟨name, q, q'⟩⟩ :=
      if_neg (not_or.2 ⟨isName.ne_functor, isName.ne_o⟩)
    rw [written]
    refine .word isWord_functor rfl step (.blank rfl ?_)
    refine .word isName.word rfl (named ..) (.blank rfl (.symbol rfl rfl (.blank rfl ?_)))
    refine isOperand_render plain.expr plain.names apart fun x stop p' hx ↦ next _ _ ?_
    rw [plain.bare] at hx
    exact hx ▸ .expression
  | root body => exact .root legible ready apart next

/-- Line after line is read. -/
theorem lines {clauses : List Clause} (legible : ∀ c ∈ clauses, c.Legible) (ready : Ready r done) :
    Completes .program (fun items ↦ items.map Item.clause = done.reverse ++ clauses) r p
      ("\n".intercalate (clauses.map Clause.render)).toList := by
  induction clauses generalizing r p done with
  | nil =>
    obtain ⟨items, finishes, clauses⟩ := ready.finish p
    rw [List.append_nil]
    exact .done finishes clauses
  | cons c clauses ih =>
    obtain ⟨first, legible⟩ := List.forall_mem_cons.1 legible
    cases clauses with
    | nil =>
      rw [List.map_singleton, String.intercalate_singleton, ← List.append_nil c.render.toList]
      refine .clause first ready trivial fun r' p' ready' ↦ ?_
      obtain ⟨items, finishes, clauses⟩ := ready'.finish p'
      rw [List.reverse_cons] at clauses
      exact .done finishes clauses
    | cons c₂ clauses =>
      simp only [List.map_cons, String.intercalate_cons_cons, String.toList_append,
        List.append_assoc] at ih ⊢
      refine .clause first ready rfl fun r' p' ready' ↦ .blank rfl ?_
      have rest := ih legible ready' (p := p'.advance '\n')
      rwa [List.reverse_cons, List.append_assoc] at rest

end Completes

/-- Clauses that are written line after line are read back. -/
theorem read_lines {clauses : List Clause} (legible : ∀ c ∈ clauses, c.Legible) :
    ∃ items, read .program ("\n".intercalate (clauses.map Clause.render)) = .ok items ∧
      items.map Item.clause = clauses := by
  obtain ⟨r, items, reads, finishes, same⟩ :=
    Completes.lines legible .start (p := .origin)
  refine ⟨items, ?_, same⟩
  exact Except.bind_eq_ok_iff.2 ⟨r, reads, finishes⟩

end Taskflow.Grammar
