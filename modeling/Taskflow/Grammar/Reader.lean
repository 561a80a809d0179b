import Taskflow.Grammar.Expectation
import Taskflow.Grammar.Token
import Taskflow.Grammar.Tree

/-!
# The reader

The grammar, with `word` for a run of letters, digits and underscores and `name` for a word other
than `functor` and `o`:

```text
program    = item*                       signatures = signature*
item       = signature | functor | expression
signature  = name "::" type              functor    = "functor"? name "=" expression
expression = factor (("∘" | "o") factor)*
factor     = term (("×" | "*") term)*
term       = name | "(" expression ")"
type       = power (("->" | "→") type)?
power      = atom (("×" | "*") atom)*
atom       = "(" ")" | "(" type ")" | word | word "[" type ("," type)* "]"
```

No layout stands between a word and its bracket.  Both expression operators fold to the left.

The reader takes one token at a time.  Its `Phase` says where in the grammar it stands and holds the
operands that still wait for their operator, one frame for every open bracket, so reading is one
pass over the tokens: no token is looked at twice, and a text is refused at the first token after
which no continuation could be accepted.  Three details of refusal are part of the language:

* a declaration whose head breaks off (`functor x` without `=`, or a name without `::` where only
  signatures may stand) is refused at its head;
* where an item could have begun, everything that the previous item could have continued with is
  asked for as well;
* a whole text that is refused before its first byte is asked for as a whole.
-/

namespace Taskflow.Grammar

/-- What a text is read as. -/
inductive Entry where
  | program
  | signatures
  /-- one expression alone -/
  | expression
deriving DecidableEq, Repr

/-- What becomes of an expression once it is complete. -/
inductive Goal where
  /-- an item that begins at that point -/
  | root (start : Position)
  /-- the body of a functor whose declaration begins at that point -/
  | body (start : Position) (name : Word)
deriving DecidableEq, Repr

/-- The left operands that wait at one bracket level of an expression. -/
structure Waiting where
  composed : Option Expr
  multiplied : Option Expr
deriving DecidableEq, Repr

namespace Waiting

def nothing : Waiting := ⟨none, none⟩

/-- The factor that ends with the operand `x`. -/
def factor (w : Waiting) (x : Expr) : Expr :=
  match w.multiplied with
  | none => x
  | some l => .product l x

/-- The expression that ends with the operand `x`. -/
def value (w : Waiting) (x : Expr) : Expr :=
  match w.composed with
  | none => w.factor x
  | some l => .compose l (w.factor x)

/-- `x` is followed by the product sign. -/
def times (w : Waiting) (x : Expr) : Waiting := ⟨w.composed, some (w.factor x)⟩

/-- `x` is followed by the composition sign. -/
def after (w : Waiting) (x : Expr) : Waiting := ⟨some (w.value x), none⟩

end Waiting

/-- What opened a bracket level of a type. -/
inductive Bracket where
  | paren
  /-- the arguments of a name, with those that are complete, the latest first -/
  | arguments (name : String) (earlier : List Ty)
deriving DecidableEq, Repr

/-- The left operands that wait at one bracket level of a type: the domains of arrows, the latest
first, and the left side of a product. -/
structure WaitingTy where
  domains : List Ty
  multiplied : Option Ty
deriving DecidableEq, Repr

namespace WaitingTy

def nothing : WaitingTy := ⟨[], none⟩

def power (w : WaitingTy) (t : Ty) : Ty :=
  match w.multiplied with
  | none => t
  | some l => .prod l t

/-- The type that ends with the operand `t`. -/
def value (w : WaitingTy) (t : Ty) : Ty :=
  w.domains.foldl (fun codomain d ↦ .fn d codomain) (w.power t)

def times (w : WaitingTy) (t : Ty) : WaitingTy := ⟨w.domains, some (w.power t)⟩

def thenTo (w : WaitingTy) (t : Ty) : WaitingTy := ⟨w.power t :: w.domains, none⟩

end WaitingTy

/-- The type that a word stands for: a single lowercase letter is a variable. -/
def tyOfWord (text : String) : Ty :=
  if text = "Unit" then .unit
  else match text.toList with
    | [c] => if c.isLower then .var text else .mono text
    | _ => .mono text

/-- A name with arguments is opaque: its arguments only matter as written. -/
def tyOfArguments (name : String) (arguments : List Ty) : Ty :=
  .mono (name ++ "[" ++ ", ".intercalate (arguments.map Ty.render) ++ "]")

/-- Where in the grammar the reader stands. -/
inductive Phase where
  /-- before the first item -/
  | item
  /-- after a name that may begin any item; the list says what the item before it could have
  continued with instead -/
  | name (before : List Construct) (word : Word)
  /-- after `functor` -/
  | keyword (before : List Construct) (start : Position)
  /-- after `functor` and a name -/
  | functorName (before : List Construct) (start : Position) (word : Word)
  /-- an operand of an expression comes next -/
  | operand (goal : Goal) (outer : List Waiting) (here : Waiting)
  /-- after an operand of an expression, which ends at `stop` -/
  | operator (goal : Goal) (outer : List Waiting) (here : Waiting) (x : Expr) (stop : Position)
  /-- an operand of a type comes next; `fresh` right after an opening parenthesis -/
  | tyOperand (name : Word) (outer : List (WaitingTy × Bracket)) (here : WaitingTy) (fresh : Bool)
  /-- after an operand of a type; if that is a bare word, `bare` is its text and where it ends -/
  | tyOperator (name : Word) (outer : List (WaitingTy × Bracket)) (here : WaitingTy) (t : Ty)
    (bare : Option (String × Position))
deriving DecidableEq, Repr

/-- The items that are complete, the latest first, and the one in progress. -/
structure Reading where
  items : List Item
  phase : Phase
deriving DecidableEq, Repr

namespace Goal

/-- The item that a complete expression makes, if the next token starts at `next`. -/
def item (g : Goal) (here : Waiting) (x : Expr) (stop next : Position) : Item :=
  -- layout after the last operand belongs to the item unless that operand ends both a product and
  -- a composition
  let last := if here.composed.isSome && here.multiplied.isSome then stop else next
  match g with
  | .root start => .expression (here.value x) ⟨start, last⟩
  | .body start name => .functor name (here.value x) ⟨start, last⟩

end Goal

/-- What could continue a type at `p`: arguments only if they touch the word that they belong to. -/
def tyContinuations (bare : Option (String × Position)) (p : Position) : List Construct :=
  match bare with
  | some (_, stop) => if stop = p then [.typeArguments, .product] else [.product]
  | none => [.product]

/-- What could continue an expression after an operand. -/
def continuations : List Construct := [.product, .composition]

namespace Entry

/-- What an item of the text can be. -/
def items : Entry → List Construct
  | .program => [.name, .functor]
  | .signatures => [.name]
  | .expression => []

/-- The text as a whole. -/
def whole : Entry → List Construct
  | .program => [.program]
  | .signatures => [.signatureFile]
  | .expression => [.name]

/-- The refusal of a text where an item could begin or the text could end. -/
def refuseItem (e : Entry) (before : List Construct) (p : Position) : SyntaxError :=
  if p.offset = 0 then ⟨p, e.whole⟩ else ⟨p, .endOfInput :: before ++ e.items⟩

/-- The refusal of a name at `p` that begins no signature. -/
def refuseSignature (before : List Construct) (p : Position) : SyntaxError :=
  if p.offset = 0 then ⟨p, [.signatureFile]⟩ else ⟨p, .endOfInput :: before ++ [.signature]⟩

/-- Where reading begins. -/
def start : Entry → Position → Phase
  | .program, _ | .signatures, _ => .item
  | .expression, p => .operand (.root p) [] .nothing

/-- Begin an item with a token. -/
def beginItem (e : Entry) (before : List Construct) (tok : Token) : Except SyntaxError Phase :=
  match e, tok.lexeme with
  | .program, .word "functor" => .ok (.keyword before tok.start)
  | .program, .openParen => .ok (.operand (.root tok.start) [.nothing] .nothing)
  | .expression, _ => .error (e.refuseItem before tok.start)
  | _, .word text =>
    if text = "functor" ∨ text = "o" then .error (e.refuseItem before tok.start)
    else .ok (.name before ⟨text, tok.span⟩)
  | _, _ => .error (e.refuseItem before tok.start)

end Entry

namespace Phase

/-- Read the token after an operand of an expression. -/
def operate (e : Entry) (items : List Item) (goal : Goal) (outer : List Waiting) (here : Waiting)
    (x : Expr) (stop : Position) (tok : Token) : Except SyntaxError Reading :=
  match tok.lexeme, outer with
  | .cross, _ => .ok ⟨items, .operand goal outer (here.times x)⟩
  | .circle, _ => .ok ⟨items, .operand goal outer (here.after x)⟩
  | .word "o", _ => .ok ⟨items, .operand goal outer (here.after x)⟩
  | .closeParen, up :: rest => .ok ⟨items, .operator goal rest up (here.value x) tok.stop⟩
  | _, _ :: _ => .error ⟨tok.start, continuations⟩
  | _, [] => do
    let phase ← e.beginItem continuations tok
    .ok ⟨goal.item here x stop tok.start :: items, phase⟩

/-- Read a token that does not continue a type: at the outermost level the signature is complete. -/
def leaveTy (e : Entry) (items : List Item) (name : Word) (outer : List (WaitingTy × Bracket))
    (here : WaitingTy) (t : Ty) (bare : Option (String × Position)) (tok : Token) :
    Except SyntaxError Reading :=
  match outer with
  | _ :: _ => .error ⟨tok.start, tyContinuations bare tok.start⟩
  | [] => do
    let phase ← e.beginItem (tyContinuations bare tok.start) tok
    .ok ⟨.signature name (here.value t) ⟨name.span.start, tok.start⟩ :: items, phase⟩

/-- Read the token after an operand of a type. -/
def operateTy (e : Entry) (items : List Item) (name : Word) (outer : List (WaitingTy × Bracket))
    (here : WaitingTy) (t : Ty) (bare : Option (String × Position)) (tok : Token) :
    Except SyntaxError Reading :=
  match tok.lexeme, outer, bare with
  | .cross, _, _ => .ok ⟨items, .tyOperand name outer (here.times t) false⟩
  | .arrow, _, _ => .ok ⟨items, .tyOperand name outer (here.thenTo t) false⟩
  | .closeParen, (up, .paren) :: rest, _ =>
    .ok ⟨items, .tyOperator name rest up (here.value t) none⟩
  | .comma, (up, .arguments f ts) :: rest, _ =>
    .ok ⟨items, .tyOperand name ((up, .arguments f (here.value t :: ts)) :: rest) .nothing false⟩
  | .closeBracket, (up, .arguments f ts) :: rest, _ =>
    .ok ⟨items, .tyOperator name rest up (tyOfArguments f (here.value t :: ts).reverse) none⟩
  | .openBracket, _, some (text, stop) =>
    if stop = tok.start then
      .ok ⟨items, .tyOperand name ((here, .arguments text []) :: outer) .nothing false⟩
    else leaveTy e items name outer here t bare tok
  | _, _, _ => leaveTy e items name outer here t bare tok

/-- Read the token where an operand of a type has to stand. -/
def operandTy (items : List Item) (name : Word) (outer : List (WaitingTy × Bracket))
    (here : WaitingTy) (fresh : Bool) (tok : Token) : Except SyntaxError Reading :=
  match tok.lexeme with
  | .word text => .ok ⟨items, .tyOperator name outer here (tyOfWord text) (some (text, tok.stop))⟩
  | .openParen => .ok ⟨items, .tyOperand name ((here, .paren) :: outer) .nothing true⟩
  | .closeParen =>
    match fresh, outer with
    | true, (up, _) :: rest => .ok ⟨items, .tyOperator name rest up .unit none⟩
    | _, _ => .error refuse
  | _ => .error refuse
where
  refuse : SyntaxError :=
    ⟨tok.start, if here.multiplied.isSome then [.unitType, .typeName] else [.type]⟩

end Phase

namespace Reading

/-- Read one token. -/
def step (e : Entry) (r : Reading) (tok : Token) : Except SyntaxError Reading :=
  match r.phase with
  | .item => do .ok ⟨r.items, ← e.beginItem [] tok⟩
  | .name before word =>
    match tok.lexeme with
    | .declares => .ok ⟨r.items, .tyOperand word [] .nothing false⟩
    | .equals =>
      match e with
      | .program => .ok ⟨r.items, .operand (.body word.span.start word) [] .nothing⟩
      | _ => .error (Entry.refuseSignature before word.span.start)
    | _ =>
      match e with
      | .program =>
        Phase.operate e r.items (.root word.span.start) [] .nothing (.name word) word.span.stop tok
      | _ => .error (Entry.refuseSignature before word.span.start)
  | .keyword before start =>
    match tok.lexeme with
    | .word text =>
      if text = "functor" ∨ text = "o" then .error ⟨tok.start, [.name]⟩
      else .ok ⟨r.items, .functorName before start ⟨text, tok.span⟩⟩
    | _ => .error ⟨tok.start, [.name]⟩
  | .functorName before start word =>
    match tok.lexeme with
    | .equals => .ok ⟨r.items, .operand (.body start word) [] .nothing⟩
    | _ => .error (e.refuseItem before start)
  | .operand goal outer here =>
    match tok.lexeme with
    | .word text =>
      if text = "functor" ∨ text = "o" then .error ⟨tok.start, [.name]⟩
      else .ok ⟨r.items, .operator goal outer here (.name ⟨text, tok.span⟩) tok.stop⟩
    | .openParen => .ok ⟨r.items, .operand goal (here :: outer) .nothing⟩
    | _ => .error ⟨tok.start, [.name]⟩
  | .operator goal outer here x stop => Phase.operate e r.items goal outer here x stop tok
  | .tyOperand name outer here fresh => Phase.operandTy r.items name outer here fresh tok
  | .tyOperator name outer here t bare => Phase.operateTy e r.items name outer here t bare tok

/-- The items of a text that ends at `p`, in source order. -/
def finish (e : Entry) (r : Reading) (p : Position) : Except SyntaxError (List Item) :=
  match r.phase with
  | .item => .ok r.items.reverse
  | .name before word =>
    match e with
    | .program =>
      let root := Goal.item (.root word.span.start) .nothing (.name word) word.span.stop p
      .ok (root :: r.items).reverse
    | _ => .error (Entry.refuseSignature before word.span.start)
  | .keyword _ _ => .error ⟨p, [.name]⟩
  | .functorName before start _ => .error (e.refuseItem before start)
  | .operand .. => .error ⟨p, [.name]⟩
  | .operator goal [] here x stop => .ok (goal.item here x stop p :: r.items).reverse
  | .operator _ (_ :: _) _ _ _ => .error ⟨p, continuations⟩
  | .tyOperand _ _ here _ =>
    .error ⟨p, if here.multiplied.isSome then [.unitType, .typeName] else [.type]⟩
  | .tyOperator name [] here t _ =>
    .ok (.signature name (here.value t) ⟨name.span.start, p⟩ :: r.items).reverse
  | .tyOperator _ (_ :: _) _ _ bare => .error ⟨p, tyContinuations bare p⟩

end Reading

/-- Read a text as what `e` says. -/
def read (e : Entry) (text : String) : Except SyntaxError (List Item) := do
  let tokens := tokenize text
  let start := (tokens.list.head?.map Token.start).getD tokens.stop
  let reading ← tokens.list.foldlM (Reading.step e) ⟨[], e.start start⟩
  reading.finish e tokens.stop

/-- The span of a whole text. -/
def spanOf (text : String) : Span := ⟨.origin, (tokenize text).stop⟩

end Taskflow.Grammar
