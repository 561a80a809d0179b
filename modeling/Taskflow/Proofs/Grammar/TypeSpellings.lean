import Taskflow.Proofs.Grammar.TypeTexts

/-!
# Spellings of types

A type can be written in many ways: with more parentheses than it needs, with either symbol for each
operation, with `Unit` for `()`, with any layout.  `TySpells t s ls` says that the lexemes `ls`
write the tree `t` with parentheses at least where precedence asks for them; the *shape* `s` is the
operation that the spelling leaves open, which decides where it may stand without parentheses of its
own.

Spellings and derivations of the grammar are the same thing (`TySpells.derived`,
`TyPhrase.spelled`), so all spellings of a tree are parsed as the type that the tree stands for.
What a type is rendered as is one of them (`Ty.parse_of_spells`).
-/

namespace Taskflow

namespace Grammar

/-! ## Trees and their spellings -/

/-- Whether something is one type or the arguments of a name. -/
inductive Arity where
  | one
  | several
deriving DecidableEq, Repr

/-- What a tree of each arity stands for. -/
abbrev Arity.Meaning : Arity → Type
  | .one => Ty
  | .several => List Ty

/-- A type as a tree of operations over the unit and names, which may have arguments. -/
inductive TyTree : Arity → Type
  | unit : TyTree .one
  | name (text : String) (isWord : IsWord text) (ne_unit : text ≠ "Unit") : TyTree .one
  | applied (name : String) (isWord : IsWord name) (arguments : TyTree .several) : TyTree .one
  | prod (left right : TyTree .one) : TyTree .one
  | arrow (domain codomain : TyTree .one) : TyTree .one
  | last (t : TyTree .one) : TyTree .several
  | more (t : TyTree .one) (rest : TyTree .several) : TyTree .several

/-- The type that a tree stands for. -/
def TyTree.value {a : Arity} : TyTree a → a.Meaning
  | .unit => Ty.unit
  | .name text _ _ => tyOfWord text
  | .applied f _ arguments => tyOfArguments f arguments.value
  | .prod left right => Ty.prod left.value right.value
  | .arrow domain codomain => Ty.fn domain.value codomain.value
  | .last t => [t.value]
  | .more t rest => t.value :: rest.value

/-- The operation that a spelling of a type leaves open. -/
inductive TyShape where
  /-- a name, the unit, or anything in parentheses -/
  | closed
  | product
  | arrow
  /-- types with commas between them, which stand in brackets alone -/
  | arguments
deriving DecidableEq, Repr

/-- The lexemes with which a type can be written.  In an operation, an operand whose shape does not
suit its place has to stand in parentheses. -/
inductive TySpells : {a : Arity} → TyTree a → TyShape → List Lexeme → Prop
  | parens {t : TyTree .one} {s ls} : TySpells t s ls →
      TySpells t .closed (.openParen :: (ls ++ [.closeParen]))
  | unit : TySpells .unit .closed [.openParen, .closeParen]
  | unitName : TySpells .unit .closed [.word "Unit"]
  | name {text isWord ne_unit} : TySpells (.name text isWord ne_unit) .closed [.word text]
  | applied {name isWord arguments ls} : TySpells arguments .arguments ls →
      TySpells (.applied name isWord arguments) .closed
        (.word name :: .openBracket :: (ls ++ [.closeBracket]))
  /-- an arrow is no operand of a product, and a product not its right one -/
  | prod {left right s ls rs} : TySpells left s ls → s ≠ .arrow → TySpells right .closed rs →
      TySpells (.prod left right) .product (ls ++ .cross :: rs)
  /-- an arrow is not the domain of another one -/
  | arrow {domain codomain s s' ls rs} : TySpells domain s ls → s ≠ .arrow →
      TySpells codomain s' rs → TySpells (.arrow domain codomain) .arrow (ls ++ .arrow :: rs)
  | last {t s ls} : TySpells t s ls → TySpells (.last t) .arguments ls
  | more {t rest s ls rs} : TySpells t s ls → TySpells rest .arguments rs →
      TySpells (.more t rest) .arguments (ls ++ .comma :: rs)

/-! ## Spellings and derivations -/

/-- Whether lexemes are derived as what a tree stands for, at all levels that their shape admits. -/
def TyTree.Derived : {a : Arity} → TyTree a → TyShape → List Lexeme → Prop
  | .one, t, s, ls =>
    (s = .closed → ∃ x : TyPhrase .atom, x.lexemes = ls ∧ x.value = t.value) ∧
      (s ≠ .arrow → ∃ x : TyPhrase .power, x.lexemes = ls ∧ x.value = t.value) ∧
        ∃ x : TyPhrase .type, x.lexemes = ls ∧ x.value = t.value
  | .several, ts, _, ls => ∃ xs : TyPhrase .arguments, xs.lexemes = ls ∧ xs.value = ts.value

namespace TyTree.Derived

variable {t : TyTree .one} {s : TyShape} {ls : List Lexeme}

/-- An atom is derived at every level. -/
theorem of_atom (x : TyPhrase .atom) (lexemes : x.lexemes = ls) (value : x.value = t.value) :
    t.Derived s ls :=
  ⟨fun _ ↦ ⟨x, lexemes, value⟩, fun _ ↦ ⟨.atom x, lexemes, value⟩,
    ⟨.power (.atom x), lexemes, value⟩⟩

theorem of_power (x : TyPhrase .power) (lexemes : x.lexemes = ls) (value : x.value = t.value) :
    t.Derived .product ls :=
  ⟨nofun, fun _ ↦ ⟨x, lexemes, value⟩, ⟨.power x, lexemes, value⟩⟩

theorem of_type (x : TyPhrase .type) (lexemes : x.lexemes = ls) (value : x.value = t.value) :
    t.Derived .arrow ls :=
  ⟨nofun, fun other ↦ (other rfl).elim, ⟨x, lexemes, value⟩⟩

end TyTree.Derived

/-- What is spelled is derived. -/
theorem TySpells.derived {a : Arity} {t : TyTree a} {s : TyShape} {ls : List Lexeme}
    (h : TySpells t s ls) : t.Derived s ls := by
  induction h with
  | parens _ ih =>
    obtain ⟨-, -, x, lexemes, value⟩ := ih
    exact .of_atom (.parens x) (by rw [TyPhrase.lexemes, lexemes]) value
  | unit => exact .of_atom .unit rfl rfl
  | unitName => exact .of_atom (.word "Unit" (by decide)) rfl rfl
  | @name text isWord => exact .of_atom (.word text isWord) rfl rfl
  | @applied name isWord _ _ _ ih =>
    obtain ⟨xs, lexemes, value⟩ := ih
    refine .of_atom (.applied name isWord xs) (by rw [TyPhrase.lexemes, lexemes]) ?_
    rw [TyPhrase.value, value]
    rfl
  | prod _ other _ ihLeft ihRight =>
    obtain ⟨x, lexemes, value⟩ := ihLeft.2.1 other
    obtain ⟨y, lexemes', value'⟩ := ihRight.1 rfl
    refine .of_power (.times x y) (by rw [TyPhrase.lexemes, lexemes, lexemes']) ?_
    rw [TyPhrase.value, value, value']
    rfl
  | arrow _ other _ ihDomain ihCodomain =>
    obtain ⟨x, lexemes, value⟩ := ihDomain.2.1 other
    obtain ⟨y, lexemes', value'⟩ := ihCodomain.2.2
    refine .of_type (.arrow x y) (by rw [TyPhrase.lexemes, lexemes, lexemes']) ?_
    rw [TyPhrase.value, value, value']
    rfl
  | last _ ih =>
    obtain ⟨-, -, x, lexemes, value⟩ := ih
    refine ⟨.last x, lexemes, ?_⟩
    rw [TyPhrase.value, value]
    rfl
  | more _ _ ih ihRest =>
    obtain ⟨-, -, x, lexemes, value⟩ := ih
    obtain ⟨xs, lexemes', value'⟩ := ihRest
    refine ⟨.more x xs, by rw [TyPhrase.lexemes, lexemes, lexemes'], ?_⟩
    rw [TyPhrase.value, value, value']
    rfl

/-- Whether lexemes spell a tree that stands for something, in a shape that suits a level. -/
def TyLevel.Spelled (ls : List Lexeme) : (l : TyLevel) → l.Meaning → Prop
  | .atom, u => ∃ t : TyTree .one, TySpells t .closed ls ∧ t.value = u
  | .power, u => ∃ (t : TyTree .one) (s : TyShape), s ≠ .arrow ∧ TySpells t s ls ∧ t.value = u
  | .type, u => ∃ (t : TyTree .one) (s : TyShape), TySpells t s ls ∧ t.value = u
  | .arguments, us => ∃ ts : TyTree .several, TySpells ts .arguments ls ∧ ts.value = us

/-- What is derived is spelled. -/
theorem TyPhrase.spelled {l : TyLevel} (x : TyPhrase l) : l.Spelled x.lexemes x.value := by
  induction x with
  | word text isWord =>
    by_cases unit : text = "Unit"
    · subst unit
      exact ⟨.unit, .unitName, rfl⟩
    · exact ⟨.name text isWord unit, .name, rfl⟩
  | applied name isWord arguments ih =>
    obtain ⟨ts, spells, value⟩ := ih
    refine ⟨.applied name isWord ts, .applied spells, ?_⟩
    rw [TyTree.value, value]
    rfl
  | unit => exact ⟨.unit, .unit, rfl⟩
  | parens inner ih =>
    obtain ⟨t, s, spells, value⟩ := ih
    exact ⟨t, .parens spells, value⟩
  | atom x ih =>
    obtain ⟨t, spells, value⟩ := ih
    exact ⟨t, .closed, nofun, spells, value⟩
  | times left right ihLeft ihRight =>
    obtain ⟨t, s, other, spells, value⟩ := ihLeft
    obtain ⟨t', spells', value'⟩ := ihRight
    refine ⟨.prod t t', .product, nofun, .prod spells other spells', ?_⟩
    rw [TyTree.value, value, value']
    rfl
  | power x ih =>
    obtain ⟨t, s, -, spells, value⟩ := ih
    exact ⟨t, s, spells, value⟩
  | arrow domain codomain ihDomain ihCodomain =>
    obtain ⟨t, s, other, spells, value⟩ := ihDomain
    obtain ⟨t', s', spells', value'⟩ := ihCodomain
    refine ⟨.arrow t t', .arrow, .arrow spells other spells', ?_⟩
    rw [TyTree.value, value, value']
    rfl
  | last x ih =>
    obtain ⟨t, s, spells, value⟩ := ih
    refine ⟨.last t, .last spells, ?_⟩
    rw [TyTree.value, value]
    rfl
  | more x xs ih ihMore =>
    obtain ⟨t, s, spells, value⟩ := ih
    obtain ⟨ts, spells', value'⟩ := ihMore
    refine ⟨.more t ts, .more spells spells', ?_⟩
    rw [TyTree.value, value, value']
    rfl

/-! ## What a type is rendered as -/

/-- What a readable type is rendered as is a type of the grammar. -/
theorem Readable.exists_phrase {u : Ty} (h : Readable u) :
    ∃ x : TyPhrase .type, Snug x.lexemes u.render.toList ∧ x.value = u := by
  -- behind the lead it is read as a single signature
  let word : Word := ⟨"_", ⟨0, 0, 0⟩, ⟨1, 0, 1⟩⟩
  obtain ⟨r, items, reads, finishes, stop, rfl⟩ :
      Completes .signatures (fun items ↦ ∃ stop, items = [.signature word u ⟨⟨0, 0, 0⟩, stop⟩])
        ⟨[], .tyOperand word [] .nothing false⟩ ⟨5, 0, 5⟩ (u.render.toList ++ []) := by
    refine h.isWritten.whole rfl trivial fun here t bare p value ↦ .done rfl ⟨p, ?_⟩
    have value : here.value t = u := value
    rw [value]
    rfl
  rw [List.append_nil] at reads finishes
  have read : Grammar.read .signatures (Ty.lead ++ u.render) =
      .ok [.signature word u ⟨⟨0, 0, 0⟩, stop⟩] := by
    refine Except.bind_eq_ok_iff.2 ⟨r, ?_, ?_⟩
    · rw [tokenize, scan_lead]
      exact reads
    · rw [tokenize, String.toList_append, Position.advanceAll_append]
      exact finishes
  obtain ⟨source, admits, items, snug⟩ := exists_admitted_of_read read
  obtain ⟨name, isName, ty, span, more, rfl, -, snug⟩ := exists_signature_of_lead admits snug
  obtain ⟨first, others⟩ := List.cons.inj items
  obtain rfl := List.map_eq_nil_iff.1 others
  rw [lexemesOf, List.flatMap_nil, List.append_nil] at snug
  exact ⟨ty, snug, (Item.signature.inj first).2.1⟩

end Grammar

open Grammar

namespace Ty

variable {text : String} {u : Ty}

theorem readable_of_parse (h : Ty.parse text = .ok u) : Readable u := by
  obtain ⟨items, reads, -, found⟩ := parse_iff_read.1 h
  obtain ⟨d, last, rfl⟩ := Option.map_eq_some_iff.1 found
  obtain ⟨i, hi, declared⟩ := List.mem_filterMap.1 (List.mem_of_getLast? last)
  have legible := read_legible reads i hi
  cases i with
  | signature name ty span =>
    cases declared
    exact legible.2
  | functor | expression => cases declared

theorem parse_of_phrase (x : TyPhrase .type) (snug : Snug x.lexemes text.toList) :
    Ty.parse text = .ok x.value :=
  parse_of_lastDeclared (lastDeclared_of_phrase x snug)

/-- Every spelling of a tree, in any layout, is parsed as the type that the tree stands for.  What a
parsed type is rendered as is one of its spellings, and so is parsed as that type. -/
theorem parse_of_spells :
    (∀ (t : TyTree .one) (s : TyShape) (ls : List Lexeme) (text : String),
      TySpells t s ls → Snug ls text.toList → Ty.parse text = .ok t.value) ∧
    ∀ (text : String) (u : Ty), Ty.parse text = .ok u →
      (∃ (t : TyTree .one) (s : TyShape) (ls : List Lexeme),
        TySpells t s ls ∧ Snug ls u.render.toList ∧ t.value = u) ∧
      Ty.parse u.render = .ok u := by
  constructor
  · intro t s ls text spells snug
    obtain ⟨-, -, x, rfl, value⟩ := spells.derived
    rw [← value]
    exact parse_of_phrase x snug
  · intro text u parsed
    obtain ⟨x, snug, rfl⟩ := (readable_of_parse parsed).exists_phrase
    obtain ⟨t, s, spells, value⟩ := x.spelled
    exact ⟨⟨t, s, x.lexemes, spells, snug, value⟩, parse_of_phrase x snug⟩

/-- Parentheses that are not needed, the other symbols, and a comment to the end of the text. -/
theorem parse_of_spells_of_layout :
    let name (text : String) (isWord : IsWord text) (ne_unit : text ≠ "Unit") : TyTree .one :=
      .name text isWord ne_unit
    let t : TyTree .one := .applied "L" (by decide) (.more
      (.arrow (.prod (name "A" (by decide) (by decide)) (name "b" (by decide) (by decide)))
        (name "C" (by decide) (by decide))) (.last .unit))
    let ls : List Lexeme := [.word "L", .openBracket, .openParen, .word "A", .cross, .word "b",
      .closeParen, .arrow, .word "C", .comma, .word "Unit", .closeBracket]
    TySpells t .closed ls ∧ Snug ls "L[(A*b)→C , Unit] # end".toList ∧
      Ty.parse "L[(A*b)→C , Unit] # end" = .ok (.mono "L[(A × b) -> C, ()]") ∧
      Ty.parse (Ty.mono "L[(A × b) -> C, ()]").render = .ok (.mono "L[(A × b) -> C, ()]") := by
  intro name t ls
  have spells : TySpells t .closed ls :=
    .applied (.more (.arrow (.parens (.prod .name (by decide) .name)) (by decide) .name)
      (.last .unitName))
  have snug : Snug ls "L[(A*b)→C , Unit] # end".toList := by decide
  have parsed := parse_of_spells.1 t .closed ls _ spells snug
  have value : t.value = .mono "L[(A × b) -> C, ()]" := by decide
  rw [value] at parsed
  exact ⟨spells, snug, parsed, (parse_of_spells.2 _ _ parsed).2⟩

end Ty

end Taskflow
