import Taskflow.Proofs.Grammar.Clauses

/-!
# The grammar

The derivations of the grammar, as families over its levels: a `Phrase` derives an expression, a
`TyPhrase` a type and a `Sentence` an item.  A derivation is what a source says and how it says it.
Its `lexemes` are the source without layout, and its tree is what the reader makes of it; the same
tree has many derivations, since parentheses leave no trace in it.

What may be written differently without a change of the derivation is `plain`: the sign of a
composition, the keyword in front of a functor, and all places.
-/

namespace Taskflow.Grammar

/-! ## Expressions -/

/-- The levels of expressions, the tightest first. -/
inductive Level where
  | term
  | factor
  | expression
deriving DecidableEq, Repr

/-- How a composition is signed. -/
inductive Sign where
  /-- `∘` -/
  | circle
  /-- `o` -/
  | letter
deriving DecidableEq, Repr

def Sign.lexeme : Sign → Lexeme
  | .circle => .circle
  | .letter => .word "o"

/-- A derivation of an expression.  Both operations are grouped to the left. -/
inductive Phrase : Level → Type
  | name (word : Word) (isName : IsName word.text) : Phrase .term
  | parens (inner : Phrase .expression) : Phrase .term
  | term (x : Phrase .term) : Phrase .factor
  | times (left : Phrase .factor) (right : Phrase .term) : Phrase .factor
  | factor (x : Phrase .factor) : Phrase .expression
  | after (outer : Phrase .expression) (sign : Sign) (inner : Phrase .factor) : Phrase .expression

namespace Phrase

variable {l : Level}

def lexemes {l : Level} : Phrase l → List Lexeme
  | .name word _ => [.word word.text]
  | .parens inner => .openParen :: (inner.lexemes ++ [.closeParen])
  | .term x => x.lexemes
  | .times left right => left.lexemes ++ .cross :: right.lexemes
  | .factor x => x.lexemes
  | .after outer sign inner => outer.lexemes ++ sign.lexeme :: inner.lexemes

def tree {l : Level} : Phrase l → Expr
  | .name word _ => .name word
  | .parens inner => inner.tree
  | .term x => x.tree
  | .times left right => .product left.tree right.tree
  | .factor x => x.tree
  | .after outer _ inner => .compose outer.tree inner.tree

/-- A derivation without places, in which all compositions have one sign. -/
def plain {l : Level} : Phrase l → Phrase l
  | .name word isName => .name ⟨word.text, .nowhere⟩ isName
  | .parens inner => .parens inner.plain
  | .term x => .term x.plain
  | .times left right => .times left.plain right.plain
  | .factor x => .factor x.plain
  | .after outer _ inner => .after outer.plain .circle inner.plain

/-- A plain derivation derives the same without places. -/
@[simp] theorem bare_tree_plain (x : Phrase l) : x.plain.tree.bare = x.tree.bare := by
  induction x <;> simp_all [plain, tree, Expr.bare]

end Phrase

/-! ## Types -/

/-- The levels of types, the tightest first, and the arguments of a name. -/
inductive TyLevel where
  | atom
  | power
  | type
  | arguments
deriving DecidableEq, Repr

/-- What a derivation of each level stands for. -/
abbrev TyLevel.Meaning : TyLevel → Type
  | .atom => Ty
  | .power => Ty
  | .type => Ty
  | .arguments => List Ty

/-- A derivation of a type.  Products are grouped to the left and arrows to the right. -/
inductive TyPhrase : TyLevel → Type
  | word (text : String) (isWord : IsWord text) : TyPhrase .atom
  | applied (name : String) (isWord : IsWord name) (arguments : TyPhrase .arguments) :
    TyPhrase .atom
  | unit : TyPhrase .atom
  | parens (inner : TyPhrase .type) : TyPhrase .atom
  | atom (t : TyPhrase .atom) : TyPhrase .power
  | times (left : TyPhrase .power) (right : TyPhrase .atom) : TyPhrase .power
  | power (t : TyPhrase .power) : TyPhrase .type
  | arrow (domain : TyPhrase .power) (codomain : TyPhrase .type) : TyPhrase .type
  | last (t : TyPhrase .type) : TyPhrase .arguments
  | more (t : TyPhrase .type) (rest : TyPhrase .arguments) : TyPhrase .arguments

namespace TyPhrase

def lexemes {l : TyLevel} : TyPhrase l → List Lexeme
  | .word text _ => [.word text]
  | .applied name _ arguments =>
    .word name :: .openBracket :: (arguments.lexemes ++ [.closeBracket])
  | .unit => [.openParen, .closeParen]
  | .parens inner => .openParen :: (inner.lexemes ++ [.closeParen])
  | .atom t => t.lexemes
  | .times left right => left.lexemes ++ .cross :: right.lexemes
  | .power t => t.lexemes
  | .arrow domain codomain => domain.lexemes ++ .arrow :: codomain.lexemes
  | .last t => t.lexemes
  | .more t rest => t.lexemes ++ .comma :: rest.lexemes

def value {l : TyLevel} : TyPhrase l → l.Meaning
  | .word text _ => tyOfWord text
  | .applied name _ arguments => tyOfArguments name arguments.value
  | .unit => Ty.unit
  | .parens inner => inner.value
  | .atom t => t.value
  | .times left right => Ty.prod left.value right.value
  | .power t => t.value
  | .arrow domain codomain => Ty.fn domain.value codomain.value
  | .last t => [t.value]
  | .more t rest => t.value :: rest.value

end TyPhrase

/-! ## Items -/

/-- A derivation of an item.  The span is the one that the reader gives to the item. -/
inductive Sentence where
  | signature (name : Word) (isName : IsName name.text) (ty : TyPhrase .type) (span : Span)
  /-- `keyword` says whether the keyword is there -/
  | functor (keyword : Bool) (name : Word) (isName : IsName name.text)
    (body : Phrase .expression) (span : Span)
  | expression (body : Phrase .expression) (span : Span)

/-- What stands in front of the body of a functor. -/
def functorHead (keyword : Bool) (name : String) : List Lexeme :=
  (if keyword then [.word "functor"] else []) ++ [.word name, .equals]

namespace Sentence

def lexemes : Sentence → List Lexeme
  | .signature name _ ty _ => .word name.text :: .declares :: ty.lexemes
  | .functor keyword name _ body _ => functorHead keyword name.text ++ body.lexemes
  | .expression body _ => body.lexemes

def item : Sentence → Item
  | .signature name _ ty span => .signature name ty.value span
  | .functor _ name _ body span => .functor name body.tree span
  | .expression body span => .expression body.tree span

/-- A derivation without places, in which no functor has a keyword and all compositions have one
sign. -/
def plain : Sentence → Sentence
  | .signature name isName ty _ => .signature ⟨name.text, .nowhere⟩ isName ty .nowhere
  | .functor _ name isName body _ => .functor false ⟨name.text, .nowhere⟩ isName body.plain .nowhere
  | .expression body _ => .expression body.plain .nowhere

/-- A plain derivation says the same. -/
@[simp] theorem clause_plain (s : Sentence) : s.plain.item.clause = s.item.clause := by
  cases s <;> simp [plain, item, Item.clause]

end Sentence

/-- The lexemes of a source. -/
def lexemesOf (source : List Sentence) : List Lexeme := source.flatMap Sentence.lexemes

end Taskflow.Grammar
