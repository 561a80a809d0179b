import Taskflow.Proofs.Grammar.Acceptance
import Taskflow.Proofs.Grammar.Building

/-!
# Parse trees

A parser that knows nothing about programs hands over a tree of matches, each with the rule that
matched, the text that it matched and the matches inside.  What a match may contain is not part of
its type, so who builds a program from such a tree has to refuse trees of any other shape than those
that the grammar yields (`Fault.shape`).

`Sentence.Matched` says which trees the grammar yields.  On these the builder refuses nothing for
its shape: it does what `build` does with the items (`Match.program_eq`).  What stands inside
parentheses is matched on its own and what belongs to one operation side by side, so the induction
is over derivations, with a statement for each level (`TyLevel.Makes`, `Level.Makes`): matches side
by side are those that the builder can go through, whatever comes behind them.
-/

namespace Taskflow

namespace Grammar

/-! ## Matches -/

/-- The rules that leave a match. -/
inductive Rule where
  | program
  | endOfInput
  | signature
  | functor
  | expression
  | factor
  | name
  /-- the word `functor` -/
  | keyword
  /-- the word `o` -/
  | letter
  /-- a sign of composition -/
  | composition
  /-- a sign of products -/
  | product
  | type
  | power
  | unit
  | typeName
  | typeWord
  | arguments
deriving DecidableEq, Repr

/-- The name of a rule in the grammar. -/
def Rule.render : Rule → String
  | .program => "program"
  | .endOfInput => "EOI"
  | .signature => "signature"
  | .functor => "functor_decl"
  | .expression => "expression"
  | .factor => "product_expr"
  | .name => "identifier"
  | .keyword => "kw_functor"
  | .letter => "kw_o"
  | .composition => "op_compose"
  | .product => "op_product"
  | .type => "type_expr"
  | .power => "type_product"
  | .unit => "unit_type"
  | .typeName => "type_name"
  | .typeWord => "type_ident"
  | .arguments => "type_args"

/-- What a rule matched: the text and where it stands, and the matches inside. -/
inductive Match where
  | mk (rule : Rule) (word : Word) (inner : List Match)

namespace Match

variable (r : Rule) (w : Word) (ms : List Match)

def rule : Match → Rule
  | .mk rule _ _ => rule

@[simp] theorem rule_mk : (mk r w ms).rule = r := rfl

theorem rule_ne {r s : Rule} (h : r ≠ s) : (mk r w ms).rule ≠ s := h

def word : Match → Word
  | .mk _ word _ => word

@[simp] theorem word_mk : (mk r w ms).word = w := rfl

def inner : Match → List Match
  | .mk _ _ inner => inner

@[simp] theorem inner_mk : (mk r w ms).inner = ms := rfl

end Match

/-! ## The trees of the grammar -/

/-- The matches inside a sign of composition. -/
inductive Sign.Matched : Sign → List Match → Prop
  | circle : Matched .circle []
  | letter {word} : Matched .letter [.mk .letter word []]

/-- The matches of a derivation of an expression.  A match that is no name may have any text. -/
inductive Phrase.Matched : {l : Level} → Phrase l → List Match → Prop
  | name {word isName} : Matched (.name word isName) [.mk .name word []]
  | parens {x word inner} : Matched x inner → Matched (.parens x) [.mk .expression word inner]
  | term {x inner} : Matched x inner → Matched (.term x) inner
  | times {left right sign ls rs} : Matched left ls → Matched right rs →
      Matched (.times left right) (ls ++ .mk .product sign [] :: rs)
  | factor {x word inner} : Matched x inner → Matched (.factor x) [.mk .factor word inner]
  | after {outer sign inner word word' os signs is} : Matched outer os → sign.Matched signs →
      Matched inner is →
      Matched (.after outer sign inner) (os ++ [.mk .composition word signs, .mk .factor word' is])

/-- The matches of a derivation of a type. -/
inductive TyPhrase.Matched : {l : TyLevel} → TyPhrase l → List Match → Prop
  | word {text isWord span word} :
      Matched (.word text isWord) [.mk .typeName word [.mk .typeWord ⟨text, span⟩ []]]
  | applied {name isWord arguments span word word' inner} : Matched arguments inner →
      Matched (.applied name isWord arguments)
        [.mk .typeName word [.mk .typeWord ⟨name, span⟩ [], .mk .arguments word' inner]]
  | unit {word} : Matched .unit [.mk .unit word []]
  | parens {t word inner} : Matched t inner → Matched (.parens t) [.mk .type word inner]
  | atom {t inner} : Matched t inner → Matched (.atom t) inner
  | times {left right sign ls rs} : Matched left ls → Matched right rs →
      Matched (.times left right) (ls ++ .mk .product sign [] :: rs)
  | power {t word inner} : Matched t inner → Matched (.power t) [.mk .power word inner]
  | arrow {domain codomain word word' ds cs} : Matched domain ds → Matched codomain cs →
      Matched (.arrow domain codomain) [.mk .power word ds, .mk .type word' cs]
  | last {t word inner} : Matched t inner → Matched (.last t) [.mk .type word inner]
  | more {t rest word inner ts} : Matched t inner → Matched rest ts →
      Matched (.more t rest) (.mk .type word inner :: ts)

/-- The match of an item, which has its span. -/
inductive Sentence.Matched : Sentence → Match → Prop
  | signature {name isName ty span text word inner} : ty.Matched inner →
      Matched (.signature name isName ty span)
        (.mk .signature ⟨text, span⟩ [.mk .name name [], .mk .type word inner])
  | functor {keyword name isName body span text word word' inner} : body.Matched inner →
      Matched (.functor keyword name isName body span)
        (.mk .functor ⟨text, span⟩ ((if keyword then [.mk .keyword word []] else []) ++
          [.mk .name name [], .mk .expression word' inner]))
  | expression {body span text inner} : body.Matched inner →
      Matched (.expression body span) (.mk .expression ⟨text, span⟩ inner)

/-- The matches of the text of a source: those of its items, and that of the end. -/
inductive Match.Matched (source : List Sentence) (text : Word) : Match → Prop
  | mk {ms word} : List.Forall₂ Sentence.Matched source ms →
      Matched source text (.mk .program text (ms ++ [.mk .endOfInput word []]))

/-! Every source has matches. -/

section

variable (w : Word)
include w

theorem Sign.exists_matched (sign : Sign) : ∃ ms, sign.Matched ms := by
  cases sign with
  | circle => exact ⟨_, .circle⟩
  | letter => exact ⟨[.mk .letter w []], .letter⟩

theorem Phrase.exists_matched {l : Level} (x : Phrase l) : ∃ ms, x.Matched ms := by
  induction x with
  | name => exact ⟨_, .name⟩
  | parens _ ih =>
    obtain ⟨ms, h⟩ := ih
    exact ⟨[.mk .expression w ms], .parens h⟩
  | term _ ih =>
    obtain ⟨ms, h⟩ := ih
    exact ⟨ms, .term h⟩
  | times _ _ ihLeft ihRight =>
    obtain ⟨ls, hl⟩ := ihLeft
    obtain ⟨rs, hr⟩ := ihRight
    exact ⟨ls ++ .mk .product w [] :: rs, .times hl hr⟩
  | factor _ ih =>
    obtain ⟨ms, h⟩ := ih
    exact ⟨[.mk .factor w ms], .factor h⟩
  | after _ sign _ ihOuter ihInner =>
    obtain ⟨os, ho⟩ := ihOuter
    obtain ⟨is, hi⟩ := ihInner
    obtain ⟨signs, hs⟩ := sign.exists_matched w
    exact ⟨os ++ [.mk .composition w signs, .mk .factor w is], .after ho hs hi⟩

theorem TyPhrase.exists_matched {l : TyLevel} (t : TyPhrase l) : ∃ ms, t.Matched ms := by
  induction t with
  | word text =>
    exact ⟨[.mk .typeName w [.mk .typeWord ⟨text, .nowhere⟩ []]], .word⟩
  | applied name _ _ ih =>
    obtain ⟨ms, h⟩ := ih
    exact ⟨[.mk .typeName w [.mk .typeWord ⟨name, .nowhere⟩ [], .mk .arguments w ms]], .applied h⟩
  | unit => exact ⟨[.mk .unit w []], .unit⟩
  | parens _ ih =>
    obtain ⟨ms, h⟩ := ih
    exact ⟨[.mk .type w ms], .parens h⟩
  | atom _ ih =>
    obtain ⟨ms, h⟩ := ih
    exact ⟨ms, .atom h⟩
  | times _ _ ihLeft ihRight =>
    obtain ⟨ls, hl⟩ := ihLeft
    obtain ⟨rs, hr⟩ := ihRight
    exact ⟨ls ++ .mk .product w [] :: rs, .times hl hr⟩
  | power _ ih =>
    obtain ⟨ms, h⟩ := ih
    exact ⟨[.mk .power w ms], .power h⟩
  | arrow _ _ ihDomain ihCodomain =>
    obtain ⟨ds, hd⟩ := ihDomain
    obtain ⟨cs, hc⟩ := ihCodomain
    exact ⟨[.mk .power w ds, .mk .type w cs], .arrow hd hc⟩
  | last _ ih =>
    obtain ⟨ms, h⟩ := ih
    exact ⟨[.mk .type w ms], .last h⟩
  | more _ _ ih ihRest =>
    obtain ⟨ms, h⟩ := ih
    obtain ⟨rest, hr⟩ := ihRest
    exact ⟨.mk .type w ms :: rest, .more h hr⟩

theorem Sentence.exists_matched (s : Sentence) : ∃ m, s.Matched m := by
  cases s with
  | signature name _ ty span =>
    obtain ⟨ms, h⟩ := ty.exists_matched w
    exact ⟨.mk .signature ⟨w.text, span⟩ [.mk .name name [], .mk .type w ms], .signature h⟩
  | functor keyword name _ body span =>
    obtain ⟨ms, h⟩ := body.exists_matched w
    exact ⟨.mk .functor ⟨w.text, span⟩ ((if keyword then [.mk .keyword w []] else []) ++
      [.mk .name name [], .mk .expression w ms]), .functor h⟩
  | expression body span =>
    obtain ⟨ms, h⟩ := body.exists_matched w
    exact ⟨.mk .expression ⟨w.text, span⟩ ms, .expression h⟩

end

theorem Match.exists_matched (source : List Sentence) (text : Word) :
    ∃ m, Match.Matched source text m := by
  obtain ⟨ms, h⟩ : ∃ ms, List.Forall₂ Sentence.Matched source ms := by
    induction source with
    | nil => exact ⟨[], .nil⟩
    | cons s source ih =>
      obtain ⟨m, hm⟩ := s.exists_matched text
      obtain ⟨ms, hms⟩ := ih
      exact ⟨m :: ms, .cons hm hms⟩
  exact ⟨.mk .program text (ms ++ [.mk .endOfInput text []]), .mk h⟩

/-! ## Building from matches -/

/-- Why a tree of matches makes no program. -/
inductive Fault where
  | build (e : BuildError)
  /-- the tree has not the shape that the grammar gives to trees -/
  | shape (message : String) (span : Span)
deriving DecidableEq, Repr

namespace Match

/-! ### Types -/

mutual

/-- The type of a match. -/
def ty : Match → Except Fault Ty
  | .mk .type word [] => .error (.shape "Expected type" word.span)
  | .mk .type _ [t] => ty t
  | .mk .type _ (domain :: codomain :: _) => do .ok (.fn (← ty domain) (← ty codomain))
  | .mk .power word inner => do
    match ← power none inner with
    | none => .error (.shape "Expected type" word.span)
    | some t => .ok t
  | .mk .unit _ _ => .ok .unit
  | .mk .typeName word [] => .error (.shape "Expected type name" word.span)
  | .mk .typeName _ [.mk _ name _] => .ok (tyOfWord name.text)
  | .mk .typeName _ (.mk _ name _ :: .mk _ _ arguments :: _) => do
    .ok (tyOfArguments name.text (← tys arguments))
  | .mk rule word _ => .error (.shape s!"Unexpected type rule: {rule.render}" word.span)

/-- The types of matches. -/
def tys : List Match → Except Fault (List Ty)
  | [] => .ok []
  | m :: rest => do .ok ((← ty m) :: (← tys rest))

/-- The product of what stands on the left, if anything does, and of matches between which there may
be signs. -/
def power (left : Option Ty) : List Match → Except Fault (Option Ty)
  | [] => .ok left
  | m :: rest =>
    if m.rule = .product then power left rest
    else do
      let t ← ty m
      power (some (left.elim t fun l ↦ .prod l t)) rest

end

/-! ### Expressions -/

section

variable (declared : Table Declaration) (position : Nat)

/-- What a sign makes of two operands. -/
def join (sign : Rule) (id : NodeId) (left right : Node) : Node :=
  if sign = .composition then .composition id left right (left.span.merge right.span)
  else .product id left right (left.span.merge right.span)

mutual

/-- The expression of a match in the item at a position, numbered from `next` on, and the first
number left. -/
def node (next : NodeId) : Match → Except Fault (Node × NodeId)
  | .mk .expression word inner => do
    match ← operands .composition none next inner with
    | (none, _) => .error (.shape "Empty expression" word.span)
    | (some n, next) => .ok (n, next)
  | .mk .factor word inner => do
    match ← operands .product none next inner with
    | (none, _) => .error (.shape "Empty expression" word.span)
    | (some n, next) => .ok (n, next)
  | .mk .name word _ => do
    (inScope declared position [word]).mapError .build
    .ok (.literal next word.text word.span, next + 1)
  | .mk rule word _ => .error (.shape s!"Unexpected expression rule: {rule.render}" word.span)

/-- The operation on what stands on the left, if anything does, and on matches between which the
sign may stand. -/
def operands (sign : Rule) (left : Option Node) (next : NodeId) :
    List Match → Except Fault (Option Node × NodeId)
  | [] => .ok (left, next)
  | m :: rest =>
    if m.rule = sign then operands sign left next rest
    else do
      let (right, next) ← node next m
      match left with
      | none => operands sign (some right) next rest
      | some left => operands sign (some (join sign next left right)) (next + 1) rest

end

/-! ### Programs -/

/-- The signature of what a signature matched. -/
def signature (word : Word) : List Match → Except Fault Signature
  | [] => .error (.shape "Expected task name" word.span)
  | [_] => .error (.shape "Expected type" word.span)
  | name :: type :: _ => do .ok ⟨name.word.text, ← type.ty, word.span⟩

/-- The functor of what a declaration matched, and the first number left. -/
def functor (word : Word) (next : NodeId) (inner : List Match) :
    Except Fault (String × Node × NodeId) :=
  match inner.filter (·.rule ≠ .keyword) with
  | [] => .error (.shape "Expected functor name" word.span)
  | [_] => .error (.shape "Expected functor body" word.span)
  | name :: body :: _ => do
    let (body, next) ← body.node declared position next
    .ok (name.word.text, .functor next name.word.text body word.span, next + 1)

/-- Add the item of a match. -/
def addTo (d : Draft) : Match → Except Fault Draft
  | .mk .signature word inner => do
    let signatures ← (addSignature d.signatures (← signature word inner)).mapError .build
    .ok { d with signatures }
  | .mk .functor word inner => do
    let (name, functor, next) ← functor declared position word d.next inner
    .ok { d with next, functors := d.functors.put name functor }
  | .mk .expression word inner =>
    match d.root with
    | some root => .error (.build (.secondExpression word.span root.span))
    | none => do
      let (root, next) ← node declared position d.next (.mk .expression word inner)
      .ok { d with next, root := some root }
  | .mk rule word _ => .error (.shape s!"Unexpected program item: {rule.render}" word.span)

end

/-- Add the items of matches, the first of which has the given position. -/
def addAllTo (declared : Table Declaration) : Nat → Draft → List Match → Except Fault Draft
  | _, d, [] => .ok d
  | n, d, m :: rest => do
    let d ← m.addTo declared n d
    addAllTo declared (n + 1) d rest

/-- Add the functors that matches declare, the first of which has the given position. -/
def declare (seen : Table Declaration) : Nat → List Match → Except Fault (Table Declaration)
  | _, [] => .ok seen
  | n, m :: rest =>
    if m.rule = .functor then
      match m.inner.find? (·.rule = .name) with
      | none => .error (.shape "Functor declaration without a name" m.word.span)
      | some name =>
        match seen.lookup name.word.text with
        | some first => .error (.build (.duplicateFunctor name.word first.span))
        | none => declare (seen ++ [(name.word.text, ⟨n, name.word.span⟩)]) (n + 1) rest
    else declare seen (n + 1) rest

/-- The program of the match of a whole text. -/
def program : Match → Except Fault Program
  | .mk _ text inner => do
    let items := inner.filter (·.rule ≠ .endOfInput)
    let declared ← declare [] 0 items
    let d ← addAllTo declared 0 .blank items
    match d.root with
    | some root => .ok ⟨d.signatures, d.functors, root, text.span⟩
    | none => .error (.build (.noExpression text.span))

end Match

/-! ## What is built from the trees of the grammar -/

/-- Whether the matches of a derivation at a level make a type. -/
def TyLevel.Makes : (l : TyLevel) → l.Meaning → List Match → Prop
  | .atom, t, ms => ∃ m, ms = [m] ∧ m.rule ≠ .product ∧ m.ty = .ok t
  | .power, t, ms => ∀ rest, Match.power none (ms ++ rest) = Match.power (some t) rest
  | .type, t, ms => ∀ word, (Match.mk .type word ms).ty = .ok t
  | .arguments, ts, ms => Match.tys ms = .ok ts

namespace Match

variable {m : Match} {t : Ty} {ms : List Match}

theorem ty_power (h : TyLevel.power.Makes t ms) (word : Word) :
    (Match.mk .power word ms).ty = .ok t := by
  rw [ty, ← List.append_nil ms, h, power]
  rfl

theorem power_sign (left : Option Ty) (word : Word) (inner rest : List Match) :
    power left (.mk .product word inner :: rest) = power left rest := by
  rw [power]
  exact if_pos rfl

theorem power_operand (noSign : m.rule ≠ .product) (made : m.ty = .ok t) (left : Option Ty)
    (rest : List Match) :
    power left (m :: rest) = power (some (left.elim t fun l ↦ .prod l t)) rest := by
  rw [power, if_neg noSign, made]
  rfl

end Match

/-- Matches of a type make the type. -/
theorem TyPhrase.Matched.makes {l : TyLevel} {t : TyPhrase l} {ms : List Match}
    (h : t.Matched ms) : l.Makes t.value ms := by
  induction h with
  | word => exact ⟨_, rfl, Match.rule_ne _ _ (by decide), rfl⟩
  | applied _ ih =>
    refine ⟨_, rfl, Match.rule_ne _ _ (by decide), ?_⟩
    rw [Match.ty, show Match.tys _ = _ from ih]
    rfl
  | unit => exact ⟨_, rfl, Match.rule_ne _ _ (by decide), rfl⟩
  | parens _ ih => exact ⟨_, rfl, Match.rule_ne _ _ (by decide), ih _⟩
  | atom _ ih =>
    obtain ⟨m, rfl, noSign, made⟩ := ih
    exact fun rest ↦ Match.power_operand noSign made none rest
  | times _ _ ihLeft ihRight =>
    obtain ⟨m, rfl, noSign, made⟩ := ihRight
    intro rest
    rw [List.append_assoc, ihLeft, List.cons_append, Match.power_sign, List.singleton_append,
      Match.power_operand noSign made]
    rfl
  | power _ ih =>
    intro word
    rw [Match.ty, Match.ty_power ih]
    rfl
  | arrow _ _ ihDomain ihCodomain =>
    intro word
    rw [Match.ty, Match.ty_power ihDomain, ihCodomain]
    rfl
  | last _ ih =>
    rw [TyLevel.Makes, Match.tys, ih]
    rfl
  | more _ _ ih ihRest =>
    rw [TyLevel.Makes, Match.tys, ih, show Match.tys _ = _ from ihRest]
    rfl

section

variable {declared : Table Declaration} {position : Nat}

theorem inScope_append (ws ws' : List Word) :
    inScope declared position (ws ++ ws') =
      inScope declared position ws >>= fun _ ↦ inScope declared position ws' := by
  induction ws with
  | nil => rfl
  | cons w ws ih =>
    rw [List.cons_append, inScope, inScope, ih]
    split
    · rfl
    · split
      · rfl
      · split <;> rfl

variable (declared position) in
/-- Number an expression whose names are in scope. -/
def Expr.checked (next : NodeId) (e : Expr) : Except Fault (Node × NodeId) := do
  (inScope declared position e.words).mapError .build
  .ok (e.number next)

/-- What a sign makes of two operands, numbered one after the other. -/
theorem Expr.checked_join {sign : Rule} {left right e : Expr} {next : NodeId}
    (words : e.words = left.words ++ right.words)
    (number : e.number next =
      (Match.join sign (right.number (left.number next).2).2 (left.number next).1
        (right.number (left.number next).2).1, (right.number (left.number next).2).2 + 1)) :
    e.checked declared position next = left.checked declared position next >>= fun l ↦
      right.checked declared position l.2 >>= fun r ↦
        .ok (Match.join sign r.2 l.1 r.1, r.2 + 1) := by
  rw [checked, words, number, inScope_append, checked]
  cases inScope declared position left.words with
  | error => rfl
  | ok =>
    show _ = (right.checked declared position (left.number next).2 >>= _)
    rw [checked]
    cases inScope declared position right.words <;> rfl

theorem Expr.checked_compose (outer inner : Expr) (next : NodeId) :
    (Expr.compose outer inner).checked declared position next =
      outer.checked declared position next >>= fun o ↦
        inner.checked declared position o.2 >>= fun i ↦
          .ok (Match.join .composition i.2 o.1 i.1, i.2 + 1) :=
  checked_join rfl (by simp [number, Match.join, span_number])

theorem Expr.checked_product (left right : Expr) (next : NodeId) :
    (Expr.product left right).checked declared position next =
      left.checked declared position next >>= fun l ↦
        right.checked declared position l.2 >>= fun r ↦
          .ok (Match.join .product r.2 l.1 r.1, r.2 + 1) :=
  checked_join rfl (by simp [number, Match.join, span_number])

namespace Match

variable {m : Match} {e : Expr} {sign : Rule}

theorem operands_sign (left : Option Node) (next : NodeId) (word : Word)
    (inner rest : List Match) :
    operands declared position sign left next (.mk sign word inner :: rest) =
      operands declared position sign left next rest := by
  rw [operands]
  exact if_pos rfl

theorem operands_first (noSign : m.rule ≠ sign)
    (made : ∀ next, m.node declared position next = e.checked declared position next)
    (next : NodeId) (rest : List Match) :
    operands declared position sign none next (m :: rest) =
      e.checked declared position next >>= fun x ↦
        operands declared position sign (some x.1) x.2 rest := by
  rw [operands, if_neg noSign, made]

theorem operands_next (noSign : m.rule ≠ sign)
    (made : ∀ next, m.node declared position next = e.checked declared position next)
    (left : Node) (next : NodeId) (rest : List Match) :
    operands declared position sign (some left) next (m :: rest) =
      e.checked declared position next >>= fun x ↦
        operands declared position sign (some (join sign x.2 left x.1)) (x.2 + 1) rest := by
  rw [operands, if_neg noSign, made]

end Match

variable (declared position) in
/-- Whether the matches of a derivation at a level make an expression in the item at a position. -/
def Level.Makes (e : Expr) (ms : List Match) : Level → Prop
  | .term => ∃ m, ms = [m] ∧ m.rule ≠ .product ∧
    ∀ next, m.node declared position next = e.checked declared position next
  | .factor => ∀ next rest, Match.operands declared position .product none next (ms ++ rest) =
    e.checked declared position next >>= fun x ↦
      Match.operands declared position .product (some x.1) x.2 rest
  | .expression => ∀ next rest,
    Match.operands declared position .composition none next (ms ++ rest) =
      e.checked declared position next >>= fun x ↦
        Match.operands declared position .composition (some x.1) x.2 rest

theorem Match.node_factor {e : Expr} {ms : List Match}
    (h : Level.factor.Makes declared position e ms) (word : Word) (next : NodeId) :
    (Match.mk .factor word ms).node declared position next = e.checked declared position next := by
  rw [node, ← List.append_nil ms, h, bind_assoc]
  exact bind_pure _

theorem Match.node_expression {e : Expr} {ms : List Match}
    (h : Level.expression.Makes declared position e ms) (word : Word) (next : NodeId) :
    (Match.mk .expression word ms).node declared position next =
      e.checked declared position next := by
  rw [node, ← List.append_nil ms, h, bind_assoc]
  exact bind_pure _

/-- Matches of an expression make the expression. -/
theorem Phrase.Matched.makes {l : Level} {x : Phrase l} {ms : List Match} (h : x.Matched ms) :
    l.Makes declared position x.tree ms := by
  induction h with
  | name => exact ⟨_, rfl, Match.rule_ne _ _ (by decide), fun _ ↦ rfl⟩
  | parens _ ih =>
    exact ⟨_, rfl, Match.rule_ne _ _ (by decide), Match.node_expression ih _⟩
  | term _ ih =>
    obtain ⟨m, rfl, noSign, made⟩ := ih
    exact Match.operands_first noSign made
  | times _ _ ihLeft ihRight =>
    obtain ⟨m, rfl, noSign, made⟩ := ihRight
    intro next rest
    rw [tree, Expr.checked_product, List.append_assoc, ihLeft, bind_assoc]
    refine bind_congr fun l ↦ ?_
    rw [List.cons_append, Match.operands_sign, List.singleton_append,
      Match.operands_next noSign made, bind_assoc]
    rfl
  | factor _ ih =>
    exact Match.operands_first (Match.rule_ne _ _ (by decide)) (Match.node_factor ih _)
  | after _ _ _ ihOuter ihInner =>
    intro next rest
    rw [tree, Expr.checked_compose, List.append_assoc, ihOuter, bind_assoc]
    refine bind_congr fun l ↦ ?_
    rw [List.cons_append, Match.operands_sign, List.singleton_append,
      Match.operands_next (Match.rule_ne _ _ (by decide)) (Match.node_factor ihInner _), bind_assoc]
    rfl

/-- The functors of a draft that got an item. -/
theorem Draft.map_fst_functors_add {d d' : Draft} {item : Item}
    (h : d.add declared position item = .ok d') :
    d'.functors.map (·.1) = d.functors.map (·.1) ++ item.functorName?.toList := by
  rw [(eq_of_add h).2.1, List.map_append]
  cases item <;> rfl

/-- The match of an item adds the item, if it declares no functor that is there already. -/
theorem Sentence.Matched.addTo_eq {s : Sentence} {m : Match} (h : s.Matched m) (d : Draft)
    (fresh : ∀ name, s.item.functorName? = some name → name ∉ d.functors.map (·.1)) :
    m.addTo declared position d = (d.add declared position s.item).mapError .build := by
  cases h with
  | @signature name _ ty span text word inner h =>
    rw [Match.addTo, Match.signature, show (Match.mk .type word inner).ty = _ from h.makes word]
    show (addSignature d.signatures ⟨name.text, ty.value, span⟩).mapError _ >>= _ = _
    rw [item, Draft.add]
    cases addSignature d.signatures ⟨name.text, ty.value, span⟩ <;> rfl
  | @functor keyword name _ body span text word word' inner h =>
    have parts : ((if keyword then [Match.mk .keyword word []] else []) ++
        [Match.mk .name name [], Match.mk .expression word' inner]).filter (·.rule ≠ .keyword) =
        [Match.mk .name name [], Match.mk .expression word' inner] := by
      cases keyword <;> rfl
    rw [Match.addTo, Match.functor, parts]
    show (Match.node declared position d.next (.mk .expression word' inner) >>= _) >>= _ = _
    rw [Match.node_expression h.makes, item, Draft.add, Expr.checked]
    cases inScope declared position body.tree.words with
    | error => rfl
    | ok =>
      show Except.ok _ = Except.ok _
      rw [Match.word_mk, Table.put_eq_append (fresh name.text rfl)]
  | @expression body span text inner h =>
    rw [Match.addTo, item, Draft.add]
    cases d.root with
    | some root => rfl
    | none =>
      show Match.node declared position d.next (.mk .expression ⟨text, span⟩ inner) >>= _ = _
      rw [Match.node_expression h.makes, Expr.checked]
      cases inScope declared position body.tree.words <;> rfl

end

/-! ## Programs -/

namespace Match

/-- The matches of items add the items. -/
theorem addAllTo_eq {declared : Table Declaration} {source : List Sentence}
    {ms : List Match} (h : List.Forall₂ Sentence.Matched source ms) (n : Nat) (d : Draft)
    (distinct : (d.functors.map (·.1) ++ functorNames (source.map Sentence.item)).Nodup) :
    addAllTo declared n d ms =
      (d.addAll declared n (source.map Sentence.item)).mapError .build := by
  induction h generalizing n d with
  | nil => rfl
  | @cons s m source ms first _ ih =>
    have names : functorNames ((s :: source).map Sentence.item) =
        s.item.functorName?.toList ++ functorNames (source.map Sentence.item) := by
      rw [functorNames, List.map_cons, List.filterMap_cons]
      cases s.item.functorName? <;> rfl
    rw [names] at distinct
    have fresh (name : String) (same : s.item.functorName? = some name) :
        name ∉ d.functors.map (·.1) := by
      intro old
      refine (List.nodup_append.1 distinct).2.2 _ old name ?_ rfl
      rw [same]
      exact List.mem_cons_self
    rw [addAllTo, first.addTo_eq d fresh, List.map_cons, Draft.addAll]
    cases added : d.add declared n s.item with
    | error => rfl
    | ok d' =>
      rw [← List.append_assoc, ← Draft.map_fst_functors_add added] at distinct
      exact ih (n + 1) d' distinct

/-- The functors that matches declare are those that the items declare. -/
theorem declare_eq {source : List Sentence} {ms : List Match}
    (h : List.Forall₂ Sentence.Matched source ms) (seen : Table Declaration) (n : Nat) :
    declare seen n ms =
      (distinctFunctors (seen.map fun e ↦ (e.1, e.2.span))
        (source.map Sentence.item)).mapError .build >>= fun _ ↦
          .ok (seen ++ declarations n (source.map Sentence.item)) := by
  induction h generalizing seen n with
  | nil => exact congrArg _ (List.append_nil seen).symm
  | cons first _ ih =>
    cases first with
    | signature => exact ih seen (n + 1)
    | expression => exact ih seen (n + 1)
    | @functor keyword name _ body span text word word' inner _ =>
      have found : ((if keyword then [Match.mk .keyword word []] else []) ++
          [Match.mk .name name [], Match.mk .expression word' inner]).find? (·.rule = .name) =
          some (.mk .name name []) := by
        cases keyword <;> rfl
      rw [declare, rule_mk, if_pos rfl, inner_mk, found]
      dsimp only [word_mk]
      rw [List.map_cons, Sentence.item, distinctFunctors, lookup_map_snd]
      cases seen.lookup name.text with
      | some first => rfl
      | none =>
        have more : (seen ++ [(name.text, (⟨n, name.span⟩ : Declaration))]).map
            (fun e ↦ (e.1, e.2.span)) =
            seen.map (fun e ↦ (e.1, e.2.span)) ++ [(name.text, name.span)] := List.map_append
        show declare _ (n + 1) _ = _
        rw [ih, more, List.append_assoc]
        rfl

/-- The matches of items are kept when that of the end is left out. -/
theorem filter_items {source : List Sentence} {ms : List Match}
    (h : List.Forall₂ Sentence.Matched source ms) (word : Word) :
    (ms ++ [mk .endOfInput word []]).filter (·.rule ≠ .endOfInput) = ms := by
  induction h with
  | nil => rfl
  | @cons _ m _ _ first _ ih =>
    have item : m.rule ≠ .endOfInput := by
      cases first <;> exact nofun
    rw [List.cons_append, List.filter_cons, if_pos (decide_eq_true item), ih]

/-- From the matches of a source the same is built as from its items. -/
theorem program_eq {source : List Sentence} {text : Word} {m : Match}
    (h : m.Matched source text) :
    m.program = (build (source.map Sentence.item) text.span).mapError .build := by
  obtain ⟨matched⟩ := h
  rw [program, filter_items matched, declare_eq matched, List.map_nil, build]
  cases first : distinctFunctors [] (source.map Sentence.item) with
  | error => rfl
  | ok =>
    have nothing : (([] : Table Span).map (·.1)).Nodup := .nil
    have distinct := (distinctFunctors_eq_ok_iff nothing).1 first
    show addAllTo (declarations 0 _) 0 .blank _ >>= _ = _
    rw [addAllTo_eq matched 0 .blank distinct]
    cases Draft.blank.addAll (declarations 0 (source.map Sentence.item)) 0
        (source.map Sentence.item) with
    | error => rfl
    | ok d =>
      obtain ⟨next, signatures, functors, root⟩ := d
      cases root <;> rfl

end Match

end Grammar

open Grammar

/-- A text that the grammar accepts is parsed as a program if and only if its items make one.
Otherwise it is refused for something that is there and that keeps them from it.  The program
consists of the items, each once and in order.

The text is one of the grammar: some source has its items.  Whichever source that is and whichever
tree of matches the grammar gives to it, building from the tree yields the same program or the same
refusal, so no part of a tree is ever found to have the wrong shape. -/
theorem Program.parse_exact {text : String} {items : List Item}
    (accepted : read .program text = .ok items) :
    ((∃ p, Program.parse text = .ok p) ↔ Buildable items) ∧
    (∀ e, Program.parse text = .error e →
      ∃ b, e = .build b ∧ b.Present items (spanOf text) ∧ ¬Buildable items) ∧
    (∀ p, Program.parse text = .ok p → p.Lists items (spanOf text)) ∧
    (∃ source, source.map Sentence.item = items ∧ Snug (lexemesOf source) text.toList) ∧
    ∀ source, source.map Sentence.item = items →
      (∃ m, Match.Matched source ⟨text, spanOf text⟩ m) ∧
      ∀ m, Match.Matched source ⟨text, spanOf text⟩ m →
        (∀ p, m.program = .ok p ↔ Program.parse text = .ok p) ∧
        ∀ f, m.program = .error f ↔ ∃ b, f = .build b ∧ Program.parse text = .error (.build b) := by
  have parse : Program.parse text = (build items (spanOf text)).mapError .build := by
    rw [Program.parse, accepted]
    rfl
  rw [parse]
  refine ⟨?_, fun e refused ↦ ?_, fun p parsed ↦ .of_build (Except.mapError_eq_ok_iff.1 parsed),
    exists_source_of_read accepted,
    fun source same ↦ ⟨Match.exists_matched source _, fun m matched ↦ ?_⟩⟩
  · rw [← exists_build_iff]
    exact exists_congr fun p ↦ Except.mapError_eq_ok_iff
  · obtain ⟨b, rfl, h⟩ := Except.mapError_eq_error_iff.1 refused
    have present := BuildError.Present.of_build h
    exact ⟨b, rfl, present, present.not_buildable⟩
  · have program := Match.program_eq matched
    rw [same] at program
    rw [program]
    refine ⟨fun p ↦ Except.mapError_eq_ok_iff.trans Except.mapError_eq_ok_iff.symm, fun f ↦ ?_⟩
    rw [Except.mapError_eq_error_iff]
    refine exists_congr fun b ↦ and_congr_right fun _ ↦ ?_
    rw [Except.mapError_eq_error_iff]
    exact ⟨fun h ↦ ⟨b, rfl, h⟩, fun ⟨_, same, h⟩ ↦ ParseError.build.inj same ▸ h⟩

/-- A program with a type in parentheses and one with an argument, from whose trees the program is
built, and one whose first functor refers to the second. -/
theorem Program.parse_exact_of_forward_reference :
    (∃ items p m, read .program "b :: (A) -> L[A * B]\nfunctor f = (a o b) × c\nf" = .ok items ∧
      Program.parse "b :: (A) -> L[A * B]\nfunctor f = (a o b) × c\nf" = .ok p ∧
      p.Lists items (spanOf "b :: (A) -> L[A * B]\nfunctor f = (a o b) × c\nf") ∧
      Match.program m = .ok p) ∧
    ∃ items b, read .program "f = a o (a × g)\ng = b\nf" = .ok items ∧
      Program.parse "f = a o (a × g)\ng = b\nf" = .error (.build b) ∧
      b.Present items (spanOf "f = a o (a × g)\ng = b\nf") ∧
      b.message = "Functor 'g' is used before its declaration at 2:1" := by
  constructor
  · have accepted := Except.eq_ok_get
      (x := read .program "b :: (A) -> L[A * B]\nfunctor f = (a o b) × c\nf") (by decide)
    have parsed := Except.eq_ok_get
      (x := Program.parse "b :: (A) -> L[A * B]\nfunctor f = (a o b) × c\nf") (by decide)
    obtain ⟨-, -, lists, ⟨source, same, -⟩, trees⟩ := Program.parse_exact accepted
    obtain ⟨⟨m, matched⟩, built⟩ := trees source same
    exact ⟨_, _, m, accepted, parsed, lists _ parsed, ((built m matched).1 _).2 parsed⟩
  · have accepted := Except.eq_ok_get (x := read .program "f = a o (a × g)\ng = b\nf") (by decide)
    have refused : Program.parse "f = a o (a × g)\ng = b\nf" = .error (.build
        (.usedBeforeDeclaration ⟨"g", ⟨⟨14, 0, 13⟩, ⟨15, 0, 14⟩⟩⟩ ⟨⟨17, 1, 0⟩, ⟨18, 1, 1⟩⟩)) := by
      decide
    obtain ⟨-, present, -⟩ := Program.parse_exact accepted
    obtain ⟨b, same, found, -⟩ := present _ refused
    cases same
    exact ⟨_, _, accepted, refused, found, by decide⟩

end Taskflow
