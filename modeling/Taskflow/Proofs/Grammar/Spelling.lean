import Taskflow.Proofs.Grammar.Layout
import Taskflow.Proofs.Grammar.Numbering

/-!
# Spellings of expressions

An expression can be written in many ways: with more parentheses than it needs, with either symbol
for each operation, with any layout.  `Spells n s ls` says that the lexemes `ls` write the node `n`
with parentheses at least where precedence asks for them; the *shape* `s` is the operation that the
spelling leaves open, which decides where it may stand without parentheses of its own.

Whatever the spelling, the expression is parsed as what it spells, and its nodes are numbered in one
way (`Node.parse_spelling`).  What carries the induction is what the reader holds behind a spelling
of each shape (`Shape.Reads`): behind a closed one a single operand, behind a product the left
branch waits, and behind a composition the outer operand may wait as well.
-/

namespace Taskflow

namespace Grammar

/-! ## Spellings -/

/-- The operation that a spelling leaves open. -/
inductive Shape where
  /-- a name, or anything in parentheses -/
  | closed
  | product
  | composition
deriving DecidableEq, Repr

/-- The signs of composition: `∘` and the word `o`. -/
def Lexeme.IsCircle (l : Lexeme) : Prop := l = .circle ∨ l = .word "o"

/-- The lexemes with which an expression can be written.  In an operation, an operand whose shape
does not suit its place has to stand in parentheses. -/
inductive Spells : Node → Shape → List Lexeme → Prop
  | name {id name span} : Spells (.literal id name span) .closed [.word name]
  | parens {n s ls} : Spells n s ls → Spells n .closed (.openParen :: (ls ++ [.closeParen]))
  /-- a composition is no operand of a product, and a product not its right one -/
  | product {id left right span s s' ls rs} :
    Spells left s ls → s ≠ .composition → Spells right s' rs → s' = .closed →
      Spells (.product id left right span) .product (ls ++ .cross :: rs)
  /-- a composition is not the inner operand of another one -/
  | composition {id outer inner span s s' sign ls rs} :
    Spells outer s ls → sign.IsCircle → Spells inner s' rs → s' ≠ .composition →
      Spells (.composition id outer inner span) .composition (ls ++ sign :: rs)

/-! ## Reading lexemes -/

/-- Whether a reading takes all tokens with the given lexemes, wherever they stand, and what is true
of it then. -/
def Takes (e : Entry) (Q : Reading → Prop) (r : Reading) (ls : List Lexeme) : Prop :=
  ∀ toks : List Token, toks.map Token.lexeme = ls →
    ∃ r', toks.foldlM (Reading.step e) r = .ok r' ∧ Q r'

namespace Takes

variable {e : Entry} {Q Q' : Reading → Prop} {r : Reading} {l : Lexeme} {ls rs : List Lexeme}

theorem nil (h : Q r) : Takes e Q r [] := by
  intro toks lexemes
  obtain rfl := List.map_eq_nil_iff.1 lexemes
  exact ⟨r, rfl, h⟩

theorem cons (h : ∀ start stop, ∃ r', r.step e ⟨l, start, stop⟩ = .ok r' ∧ Takes e Q r' ls) :
    Takes e Q r (l :: ls) := by
  intro toks lexemes
  obtain ⟨tok, toks, rfl, rfl, rest⟩ := List.map_eq_cons_iff.1 lexemes
  obtain ⟨r', step, takes⟩ := h tok.start tok.stop
  obtain ⟨r'', reads, holds⟩ := takes toks rest
  exact ⟨r'', Except.bind_eq_ok_iff.2 ⟨r', step, reads⟩, holds⟩

theorem mono (h : Takes e Q r ls) (weaker : ∀ r', Q r' → Q' r') : Takes e Q' r ls := by
  intro toks lexemes
  obtain ⟨r', reads, holds⟩ := h toks lexemes
  exact ⟨r', reads, weaker r' holds⟩

/-- Lexemes are taken one part after the other. -/
theorem append (first : Takes e Q r ls) (second : ∀ r', Q r' → Takes e Q' r' rs) :
    Takes e Q' r (ls ++ rs) := by
  intro toks lexemes
  obtain ⟨front, back, rfl, rfl, rfl⟩ := List.map_eq_append_iff.1 lexemes
  obtain ⟨r', reads, holds⟩ := first front rfl
  obtain ⟨r'', reads', holds'⟩ := second r' holds back rfl
  refine ⟨r'', ?_, holds'⟩
  rw [List.foldlM_append]
  exact Except.bind_eq_ok_iff.2 ⟨r', reads, reads'⟩

end Takes

/-! ## What is read behind a spelling -/

/-- What the reader holds behind a spelling of `n` that began where `here` was waiting: the operand
`x` and, in front of it, the operands `here'`. -/
def Shape.Reads (here : Waiting) (n : Node) (here' : Waiting) (x : Expr) : Shape → Prop
  | .closed => here' = here ∧ x.bare = n.bare
  | .product => here'.composed = here.composed ∧ (here'.factor x).bare = n.bare
  | .composition => (here'.value x).bare = n.bare

/-- Whether a spelling of this shape may begin where `here` is waiting. -/
def Shape.Suits (here : Waiting) : Shape → Prop
  | .closed => True
  | .product => here.multiplied = none
  | .composition => here = .nothing

namespace Shape

variable {here here' : Waiting} {n : Node} {x : Expr} {s : Shape}

/-- Where no left branch waits, anything but a composition is read as a factor. -/
theorem Reads.factor (h : s.Reads here n here' x) (other : s ≠ .composition)
    (none : here.multiplied = none) :
    here'.composed = here.composed ∧ (here'.factor x).bare = n.bare := by
  cases s with
  | closed =>
    obtain ⟨rfl, same⟩ := h
    refine ⟨rfl, ?_⟩
    rw [Waiting.factor, none]
    exact same
  | product => exact h
  | composition => exact (other rfl).elim

/-- Where nothing waits, anything is read as a whole expression. -/
theorem Reads.value (h : s.Reads .nothing n here' x) : (here'.value x).bare = n.bare := by
  by_cases other : s = .composition
  · subst other
    exact h
  · obtain ⟨composed, same⟩ := h.factor other rfl
    rw [Waiting.value, composed]
    exact same

theorem suits_nothing : s.Suits .nothing := by
  cases s with
  | closed => trivial
  | product | composition => rfl

theorem suits_of_ne_composition (other : s ≠ .composition) (none : here.multiplied = none) :
    s.Suits here := by
  cases s with
  | closed => trivial
  | product => exact none
  | composition => exact (other rfl).elim

end Shape

/-- A reading behind an operand, of which a spelling of `n` was read. -/
def Behind (items : List Item) (goal : Goal) (outer : List Waiting) (here : Waiting) (n : Node)
    (s : Shape) (r : Reading) : Prop :=
  ∃ here' x stop, r = ⟨items, .operator goal outer here' x stop⟩ ∧ s.Reads here n here' x

/-- Either sign of composition is taken behind an operand. -/
theorem Lexeme.IsCircle.operate_eq {sign : Lexeme} (h : sign.IsCircle) {e : Entry}
    {items : List Item} {goal : Goal} {outer : List Waiting} {here : Waiting} {x : Expr}
    {stop start stop' : Position} :
    Phase.operate e items goal outer here x stop ⟨sign, start, stop'⟩ =
      .ok ⟨items, .operand goal outer (here.after x)⟩ := by
  rcases h with rfl | rfl <;> rfl

/-- A spelling is read as what it spells. -/
theorem Spells.takes {n : Node} {s : Shape} {ls : List Lexeme} (spells : Spells n s ls)
    (names : ∀ name ∈ n.references, IsName name) {e : Entry} {items : List Item} {goal : Goal}
    {outer : List Waiting} {here : Waiting} (suits : s.Suits here) :
    Takes e (Behind items goal outer here n s) ⟨items, .operand goal outer here⟩ ls := by
  induction spells generalizing outer here with
  | @name id text span =>
    have isName : IsName text := names text (List.mem_singleton.2 rfl)
    have other : ¬(text = "functor" ∨ text = "o") := not_or.2 ⟨isName.ne_functor, isName.ne_o⟩
    refine .cons fun start stop ↦ ⟨_, if_neg other, .nil ?_⟩
    exact ⟨here, .name ⟨text, start, stop⟩, stop, rfl, rfl, rfl⟩
  | parens _ ih =>
    refine .cons fun start stop ↦ ⟨_, rfl, ?_⟩
    refine (ih names Shape.suits_nothing).append ?_
    rintro r' ⟨here', x, stop', rfl, reads⟩
    refine .cons fun start stop ↦ ⟨_, rfl, .nil ?_⟩
    exact ⟨here, here'.value x, stop, rfl, rfl, reads.value⟩
  | product _ other _ closed ihLeft ihRight =>
    subst closed
    have none : here.multiplied = none := suits
    have suitsLeft := Shape.suits_of_ne_composition other none
    refine (ihLeft (fun name h ↦ names name (List.mem_append_left _ h)) suitsLeft).append ?_
    rintro r' ⟨here', x, stop', rfl, reads⟩
    obtain ⟨composed, left⟩ := reads.factor other none
    refine .cons fun start stop ↦ ⟨_, rfl, ?_⟩
    refine (ihRight (fun name h ↦ names name (List.mem_append_right _ h)) trivial).mono ?_
    rintro r'' ⟨here'', y, stop'', rfl, rfl, same⟩
    refine ⟨here'.times x, y, stop'', rfl, composed, ?_⟩
    show Node.product 0 (here'.factor x).bare y.bare .nowhere = _
    rw [left, same]
    rfl
  | composition _ circle _ other ihOuter ihInner =>
    have nothing : here = .nothing := suits
    subst nothing
    refine (ihOuter (fun name h ↦ names name (List.mem_append_left _ h))
      Shape.suits_nothing).append ?_
    rintro r' ⟨here', x, stop', rfl, reads⟩
    have suitsInner := Shape.suits_of_ne_composition other (rfl : (here'.after x).multiplied = none)
    refine .cons fun start stop ↦ ⟨_, circle.operate_eq, ?_⟩
    refine (ihInner (fun name h ↦ names name (List.mem_append_right _ h)) suitsInner).mono ?_
    rintro r'' ⟨here'', y, stop'', rfl, reads'⟩
    obtain ⟨composed, same⟩ := reads'.factor other rfl
    refine ⟨here'', y, stop'', rfl, ?_⟩
    have whole : here''.value y = .compose (here'.value x) (here''.factor y) := by
      rw [Waiting.value, composed]
      rfl
    show (here''.value y).bare = _
    rw [whole, Expr.bare, reads.value, same]
    rfl

/-! ## The canonical spelling -/

/-- Lexemes that are laid out in front of anything that does not continue a word. -/
def LaidBefore (ls : List Lexeme) (written : List Char) : Prop :=
  ∀ ⦃rs cs⦄, Apart cs → Laid rs cs → Laid (ls ++ rs) (written ++ cs)

theorem LaidBefore.operation {ls rs : List Lexeme} {cs ds : List Char} (left : LaidBefore ls cs)
    (right : LaidBefore rs ds) {c : Char} {l : Lexeme} (sign : single? c = some l) :
    LaidBefore (.openParen :: (ls ++ l :: rs ++ [.closeParen]))
      ('(' :: (cs ++ ' ' :: c :: ' ' :: (ds ++ [')']))) := by
  intro more tail apart laid
  have second : Laid (rs ++ .closeParen :: more) (ds ++ ')' :: tail) :=
    right (show Apart (')' :: tail) from rfl) (.symbol rfl laid)
  have signed : Laid (l :: (rs ++ .closeParen :: more)) (' ' :: c :: ' ' :: (ds ++ ')' :: tail)) :=
    .blank rfl (.symbol sign (.blank rfl second))
  have whole : Laid (.openParen :: (ls ++ l :: (rs ++ .closeParen :: more)))
      ('(' :: (cs ++ ' ' :: c :: ' ' :: (ds ++ ')' :: tail))) :=
    .symbol rfl (left (show Apart (' ' :: c :: ' ' :: (ds ++ ')' :: tail)) from rfl) signed)
  simpa using whole

/-- What a node is written as is a spelling of it, with parentheses around every operation. -/
theorem exists_spells_render {n : Node} (expr : n.IsExpr)
    (names : ∀ name ∈ n.references, IsName name) :
    ∃ ls, Spells n .closed ls ∧ LaidBefore ls n.render.toList := by
  induction n with
  | literal id name span =>
    have isName : IsName name := names name (List.mem_singleton.2 rfl)
    exact ⟨_, .name, fun rs cs apart laid ↦ laid.word isName.word apart⟩
  | composition id outer inner span ihOuter ihInner =>
    obtain ⟨os, spellsOuter, laidOuter⟩ :=
      ihOuter expr.1 fun name h ↦ names name (List.mem_append_left _ h)
    obtain ⟨is, spellsInner, laidInner⟩ :=
      ihInner expr.2 fun name h ↦ names name (List.mem_append_right _ h)
    refine ⟨_, .parens (.composition spellsOuter (.inl rfl) spellsInner (by decide)), ?_⟩
    simpa [Node.render] using laidOuter.operation laidInner (c := '∘') rfl
  | product id left right span ihLeft ihRight =>
    obtain ⟨ls, spellsLeft, laidLeft⟩ :=
      ihLeft expr.1 fun name h ↦ names name (List.mem_append_left _ h)
    obtain ⟨rs, spellsRight, laidRight⟩ :=
      ihRight expr.2 fun name h ↦ names name (List.mem_append_right _ h)
    refine ⟨_, .parens (.product spellsLeft (by decide) spellsRight rfl), ?_⟩
    simpa [Node.render] using laidLeft.operation laidRight (c := '×') rfl
  | functor => exact expr.elim

end Grammar

open Grammar

/-- Every spelling of an expression, in any layout, is parsed as that expression, and its nodes have
the numbers from zero on in the order of `Node.all`: operands before their operation, the left or
outer one first.  What a node is written as is one of its spellings. -/
theorem Node.parse_spelling (n : Node) (expr : n.IsExpr)
    (names : ∀ name ∈ n.references, IsName name) :
    (∀ s ls text, Spells n s ls → Laid ls text.toList → ∃ m, Node.parse text = .ok m ∧
      m.bare = n.bare ∧ m.all.map Node.id = List.range m.all.length) ∧
    ∃ s ls, Spells n s ls ∧ Laid ls n.render.toList := by
  constructor
  · intro s ls text spells laid
    -- the reader takes the tokens of the text and then holds an expression
    have lexemes : (tokenize text).list.map Token.lexeme = ls := laid.map_lexeme_scan .origin
    let start := ((tokenize text).list.head?.map Token.start).getD (tokenize text).stop
    have takes : Takes .expression (Behind [] (.root start) [] .nothing n s)
        ⟨[], .operand (.root start) [] .nothing⟩ ls := spells.takes names Shape.suits_nothing
    obtain ⟨r, taken, here, x, stop, rfl, reads⟩ := takes _ lexemes
    have read : Grammar.read .expression text =
        .ok [(Goal.root start).item here x stop (tokenize text).stop] :=
      Except.bind_eq_ok_iff.2 ⟨_, taken, rfl⟩
    have parsed : Node.parse text = .ok ((here.value x).number 0).1 := by
      rw [Node.parse, read]
      rfl
    have ids := (here.value x).map_id_all_number 0
    refine ⟨_, parsed, ?_, ?_⟩
    · rw [Expr.bare_number]
      exact reads.value
    · have size := congrArg List.length ids
      rw [List.length_map, List.length_range'] at size
      rw [ids, size, List.range_eq_range']
  · obtain ⟨ls, spells, laid⟩ := exists_spells_render expr names
    have whole : Laid (ls ++ []) (n.render.toList ++ []) := laid trivial (.nil (.gap .nil))
    rw [List.append_nil, List.append_nil] at whole
    exact ⟨_, ls, spells, whole⟩

/-- A product whose right branch is a product, a word as a sign that touches a parenthesis, and a
comment to the end of the text. -/
theorem Node.parse_spelling_of_layout :
    let leaf (name : String) : Node := .literal 0 name .nowhere
    let n : Node := .composition 0
      (.product 0 (leaf "a") (.product 0 (leaf "b") (leaf "c") .nowhere) .nowhere) (leaf "d")
      .nowhere
    n.IsExpr ∧ (∀ name ∈ n.references, IsName name) ∧
      ∃ m, Node.parse "(a)*(b × c)o d # end" = .ok m ∧ m.bare = n ∧
        m.all.map Node.id = List.range m.all.length := by
  intro leaf n
  have expr : n.IsExpr := ⟨⟨trivial, trivial, trivial⟩, trivial⟩
  have names : ∀ name ∈ n.references, IsName name := by decide
  have spells : Spells n .composition [.openParen, .word "a", .closeParen, .cross, .openParen,
      .word "b", .cross, .word "c", .closeParen, .word "o", .word "d"] :=
    .composition (.product (.parens .name) (by decide)
      (.parens (.product .name (by decide) .name rfl)) rfl) (.inr rfl) .name (by decide)
  have closing : Trailing ([' '] ++ '#' :: [' ', 'e', 'n', 'd']) :=
    .comment (.blank rfl .nil) (by simp [isLineEnd])
  have last : Laid [.word "d"] (' ' :: ("d".toList ++ " # end".toList)) :=
    .blank rfl (.word (by decide) rfl (.nil closing))
  have right : Laid [.word "b", .cross, .word "c", .closeParen, .word "o", .word "d"]
      ("b".toList ++ ' ' :: '×' :: ' ' :: ("c".toList ++ ')' :: ("o".toList ++
        ' ' :: ("d".toList ++ " # end".toList)))) :=
    .word (by decide) rfl <| .blank rfl <| .symbol rfl <| .blank rfl <| .word (by decide) rfl <|
      .symbol rfl <| .word (by decide) rfl last
  have laid : Laid _ ('(' :: ("a".toList ++ ')' :: '*' :: '(' :: _)) :=
    .symbol rfl <| .word (by decide) rfl <| .symbol rfl <| .symbol rfl <| .symbol rfl right
  obtain ⟨m, parsed, same, ids⟩ :=
    (Node.parse_spelling n expr names).1 _ _ "(a)*(b × c)o d # end" spells laid
  exact ⟨expr, names, m, parsed, same, ids⟩

end Taskflow
