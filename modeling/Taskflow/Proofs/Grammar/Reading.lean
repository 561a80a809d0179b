import Taskflow.Proofs.Grammar.Legible
import Taskflow.Proofs.Program.Structure

/-!
# Reading what is written

How the reader takes the written form of an expression or of a type.  `Completes` says of a text
that it brings a reading to its end; there is one rule for each kind of token, and the rules are
applied from the front of the text to its back.

An expression is written with parentheses around every operation, so it is read in one way
(`isOperand_render`).  A type has as few parentheses as it needs, so how its text is read depends on
the place: an *atom* is one operand, a *power* is a side of an arrow, which leaves a product open
behind it, and a *whole* type leaves an arrow open as well.  Every readable type is read back in
every place (`Readable.isWritten`).
-/

namespace Taskflow

/-! ## Trees without places -/

/-- A node without its id and its place in a text. -/
def Node.bare : Node → Node
  | .literal _ name _ => .literal 0 name .nowhere
  | .composition _ outer inner _ => .composition 0 outer.bare inner.bare .nowhere
  | .product _ left right _ => .product 0 left.bare right.bare .nowhere
  | .functor _ name body _ => .functor 0 name body.bare .nowhere

/-- Places and ids are not written. -/
@[simp] theorem Node.render_bare (n : Node) : n.bare.render = n.render := by
  induction n <;> simp_all [bare, render]

@[simp] theorem Node.references_bare (n : Node) : n.bare.references = n.references := by
  induction n <;> simp_all [bare, references]

namespace Grammar

/-- The node that a tree makes, without ids and places. -/
def Expr.bare : Expr → Node
  | .name word => .literal 0 word.text .nowhere
  | .compose outer inner => .composition 0 outer.bare inner.bare .nowhere
  | .product left right => .product 0 left.bare right.bare .nowhere

@[simp] theorem Expr.bare_number (x : Expr) (n : NodeId) : (x.number n).1.bare = x.bare := by
  induction x generalizing n <;> simp_all [number, bare, Node.bare]

@[simp] theorem Expr.references_bare (x : Expr) :
    x.bare.references = x.words.map Word.text := by
  induction x <;> simp_all [bare, words, Node.references]

theorem Expr.isExpr_bare (x : Expr) : x.bare.IsExpr := by
  induction x with
  | name => trivial
  | compose outer inner ihOuter ihInner => exact ⟨ihOuter, ihInner⟩
  | product left right ihLeft ihRight => exact ⟨ihLeft, ihRight⟩

/-! ## Scanning -/

/-- Whether a text does not continue a word. -/
def Apart : List Char → Prop
  | [] => True
  | c :: _ => isWordChar c = false

/-- No character of a word separates tokens. -/
theorem isBlank_eq_false {c : Char} (h : isWordChar c = true) : isBlank c = false ∧ c ≠ '#' := by
  constructor
  · rw [Bool.eq_false_iff]
    intro blank
    simp only [isBlank, isLineEnd, Bool.or_eq_true, beq_iff_eq] at blank
    rcases blank with (rfl | rfl) | rfl | rfl <;> revert h <;> decide
  · rintro rfl
    revert h
    decide

/-- A word goes on to the first character that does not belong to it. -/
theorem scan_word {ws cs : List Char} (letters : ∀ c ∈ ws, isWordChar c = true) (apart : Apart cs)
    (p start : Position) (first : List Char) :
    scan p (.word start first) (ws ++ cs) =
      ⟨.word (String.ofList (first.reverse ++ ws)), start, p.advanceAll ws⟩ ::
        scan (p.advanceAll ws) .between cs := by
  induction ws generalizing p first with
  | nil =>
    cases cs with
    | nil => simp [scan, Mode.close]
    | cons c cs =>
      have other : isWordChar c = false := apart
      simp [scan, Mode.feed, Mode.close, other]
  | cons c ws ih =>
    obtain ⟨letter, letters⟩ := List.forall_mem_cons.1 letters
    rw [List.cons_append, scan, Mode.feed, if_pos letter, ih letters]
    simp

/-- A word makes a token of its own where no other letter follows. -/
theorem scan_of_isWord {text : String} (hw : IsWord text) {cs : List Char} (apart : Apart cs)
    (p : Position) :
    scan p .between (text.toList ++ cs) =
      ⟨.word text, p, p.advanceAll text.toList⟩ ::
        scan (p.advanceAll text.toList) .between cs := by
  cases letters : text.toList with
  | nil => exact (hw.ne_nil letters).elim
  | cons c ws =>
    have chars := hw.chars
    rw [letters] at chars
    obtain ⟨letter, chars⟩ := List.forall_mem_cons.1 chars
    obtain ⟨notBlank, notComment⟩ := isBlank_eq_false letter
    have opens : Mode.open' p c = ([], .word p [c]) := by
      simp [Mode.open', notBlank, notComment, letter]
    rw [List.cons_append, scan, Mode.feed, opens]
    dsimp only
    rw [scan_word chars apart, List.nil_append, List.reverse_singleton, List.singleton_append,
      ← letters, String.ofList_toList, letters]
    rfl

/-- A character that makes a token by itself. -/
theorem open'_of_single {c : Char} {l : Lexeme} (h : single? c = some l) (p : Position) :
    Mode.open' p c = ([⟨l, p, p.advance c⟩], .between) := by
  unfold single? at h
  split at h <;> first | cases h; rfl | cases h

/-! ## Completing a reading -/

/-- Whether a text that begins at `p` brings a reading to its end, with items that satisfy `Q`. -/
def Completes (e : Entry) (Q : List Item → Prop) (r : Reading) (p : Position) (cs : List Char) :
    Prop :=
  ∃ r' items, (scan p .between cs).foldlM (Reading.step e) r = .ok r' ∧
    r'.finish e (p.advanceAll cs) = .ok items ∧ Q items

namespace Completes

variable {e : Entry} {Q : List Item → Prop} {r r' : Reading} {p p' : Position} {cs cs' : List Char}

theorem done {items : List Item} (finishes : r.finish e p = .ok items) (h : Q items) :
    Completes e Q r p [] :=
  ⟨r, items, rfl, finishes, h⟩

/-- A token is read. -/
theorem token_iff {tok : Token} (scans : scan p .between cs = tok :: scan p' .between cs')
    (ends : p.advanceAll cs = p'.advanceAll cs') (step : r.step e tok = .ok r') :
    Completes e Q r p cs ↔ Completes e Q r' p' cs' := by
  have same : (scan p .between cs).foldlM (Reading.step e) r =
      (scan p' .between cs').foldlM (Reading.step e) r' := by
    rw [scans, List.foldlM_cons, step]
    rfl
  rw [Completes, Completes, same, ends]

/-- A blank is skipped. -/
theorem blank {c : Char} (hc : isBlank c = true) (h : Completes e Q r (p.advance c) cs) :
    Completes e Q r p (c :: cs) := by
  have scans : scan p .between (c :: cs) = scan (p.advance c) .between cs := by
    simp [scan, Mode.feed, Mode.open', hc]
  rw [Completes, scans]
  exact h

theorem symbol_iff {c : Char} {l : Lexeme} (hc : single? c = some l)
    (step : r.step e ⟨l, p, p.advance c⟩ = .ok r') :
    Completes e Q r p (c :: cs) ↔ Completes e Q r' (p.advance c) cs := by
  refine token_iff ?_ rfl step
  rw [scan, Mode.feed, open'_of_single hc]
  rfl

theorem symbol {c : Char} {l : Lexeme} (hc : single? c = some l)
    (step : r.step e ⟨l, p, p.advance c⟩ = .ok r') (h : Completes e Q r' (p.advance c) cs) :
    Completes e Q r p (c :: cs) :=
  (symbol_iff hc step).2 h

theorem declares (step : r.step e ⟨.declares, p, (p.advance ':').advance ':'⟩ = .ok r')
    (h : Completes e Q r' ((p.advance ':').advance ':') cs) :
    Completes e Q r p (':' :: ':' :: cs) := by
  have scans : scan p .between (':' :: ':' :: cs) =
      ⟨.declares, p, (p.advance ':').advance ':'⟩ ::
        scan ((p.advance ':').advance ':') .between cs := rfl
  exact (token_iff scans rfl step).2 h

theorem arrow (step : r.step e ⟨.arrow, p, (p.advance '-').advance '>'⟩ = .ok r')
    (h : Completes e Q r' ((p.advance '-').advance '>') cs) :
    Completes e Q r p ('-' :: '>' :: cs) := by
  have scans : scan p .between ('-' :: '>' :: cs) =
      ⟨.arrow, p, (p.advance '-').advance '>'⟩ ::
        scan ((p.advance '-').advance '>') .between cs := rfl
  exact (token_iff scans rfl step).2 h

theorem word {text : String} (hw : IsWord text) (apart : Apart cs)
    (step : r.step e ⟨.word text, p, p.advanceAll text.toList⟩ = .ok r')
    (h : Completes e Q r' (p.advanceAll text.toList) cs) :
    Completes e Q r p (text.toList ++ cs) :=
  (token_iff (scan_of_isWord hw apart p) (Position.advanceAll_append _ _ _) step).2 h

end Completes

/-! ## Expressions -/

/-- Whether a text is read as an operand that makes the node `n`. -/
def IsOperand (cs : List Char) (n : Node) : Prop :=
  ∀ ⦃e Q items goal outer here p rest⦄, Apart rest →
    (∀ x stop p', x.bare = n →
      Completes e Q ⟨items, .operator goal outer here x stop⟩ p' rest) →
    Completes e Q ⟨items, .operand goal outer here⟩ p (cs ++ rest)

namespace IsOperand

variable {cs ds : List Char} {m n : Node}

theorem name {text : String} (h : IsName text) :
    IsOperand text.toList (.literal 0 text .nowhere) := by
  intro e Q items goal outer here p rest apart next
  have other : ¬(text = "functor" ∨ text = "o") := not_or.2 ⟨h.ne_functor, h.ne_o⟩
  have step (stop : Position) :
      Reading.step e ⟨items, .operand goal outer here⟩ ⟨.word text, p, stop⟩ =
        .ok ⟨items, .operator goal outer here (.name ⟨text, p, stop⟩) stop⟩ := if_neg other
  exact .word h.word apart (step _) (next _ _ _ rfl)

/-- Parentheses open a level of their own, which is closed when the operation is complete. -/
theorem operation (hm : IsOperand cs m) (hn : IsOperand ds n) {c : Char} {l : Lexeme}
    (hc : single? c = some l) {after : Expr → Waiting} {k : Node}
    (sign : ∀ e items goal outer x stop start stop',
      Phase.operate e items goal outer .nothing x stop ⟨l, start, stop'⟩ =
        .ok ⟨items, .operand goal outer (after x)⟩)
    (makes : ∀ x y, x.bare = m → y.bare = n → ((after x).value y).bare = k) :
    IsOperand ('(' :: (cs ++ ' ' :: c :: ' ' :: (ds ++ [')']))) k := by
  intro e Q items goal outer here p rest apart next
  simp only [List.cons_append, List.append_assoc]
  refine .symbol rfl rfl (hm rfl fun x stop p' hx ↦ .blank rfl ?_)
  refine .symbol hc (sign ..) (.blank rfl (hn rfl fun y stop p' hy ↦ ?_))
  exact .symbol rfl rfl (next _ _ _ (makes x y hx hy))

theorem composition (hm : IsOperand cs m) (hn : IsOperand ds n) :
    IsOperand ('(' :: (cs ++ ' ' :: '∘' :: ' ' :: (ds ++ [')']))) (.composition 0 m n .nowhere) :=
  hm.operation hn rfl (fun _ _ _ _ _ _ _ _ ↦ rfl) fun _ _ hx hy ↦ hx ▸ hy ▸ rfl

theorem product (hm : IsOperand cs m) (hn : IsOperand ds n) :
    IsOperand ('(' :: (cs ++ ' ' :: '×' :: ' ' :: (ds ++ [')']))) (.product 0 m n .nowhere) :=
  hm.operation hn rfl (fun _ _ _ _ _ _ _ _ ↦ rfl) fun _ _ hx hy ↦ hx ▸ hy ▸ rfl

end IsOperand

/-- An expression is read back as it is written. -/
theorem isOperand_render {n : Node} (expr : n.IsExpr)
    (names : ∀ name ∈ n.references, IsName name) : IsOperand n.render.toList n.bare := by
  induction n with
  | literal id name span => exact .name (names name (List.mem_singleton.2 rfl))
  | composition id outer inner span ihOuter ihInner =>
    have first := ihOuter expr.1 fun name h ↦ names name (List.mem_append_left _ h)
    have second := ihInner expr.2 fun name h ↦ names name (List.mem_append_right _ h)
    simpa [Node.render, Node.bare] using first.composition second
  | product id left right span ihLeft ihRight =>
    have first := ihLeft expr.1 fun name h ↦ names name (List.mem_append_left _ h)
    have second := ihRight expr.2 fun name h ↦ names name (List.mem_append_right _ h)
    simpa [Node.render, Node.bare] using first.product second
  | functor => exact expr.elim

/-! ## Types -/

/-- Whether a text is read as an operand of a type. -/
def IsAtom (cs : List Char) (t : Ty) : Prop :=
  ∀ ⦃e Q items name outer here fresh p rest⦄, Apart rest →
    (∀ bare p', Completes e Q ⟨items, .tyOperator name outer here t bare⟩ p' rest) →
    Completes e Q ⟨items, .tyOperand name outer here fresh⟩ p (cs ++ rest)

/-- Whether a text is read as a side of an arrow. -/
def IsPower (cs : List Char) (t : Ty) : Prop :=
  ∀ ⦃e Q items name outer here fresh p rest⦄, here.multiplied = none → Apart rest →
    (∀ here' t' bare p', here'.domains = here.domains → here'.power t' = t →
      Completes e Q ⟨items, .tyOperator name outer here' t' bare⟩ p' rest) →
    Completes e Q ⟨items, .tyOperand name outer here fresh⟩ p (cs ++ rest)

/-- Whether a text is read as the rest of a type. -/
def IsWhole (cs : List Char) (t : Ty) : Prop :=
  ∀ ⦃e Q items name outer here fresh p rest⦄, here.multiplied = none → Apart rest →
    (∀ here' t' bare p', here'.value t' = here.value t →
      Completes e Q ⟨items, .tyOperator name outer here' t' bare⟩ p' rest) →
    Completes e Q ⟨items, .tyOperand name outer here fresh⟩ p (cs ++ rest)

section Types

variable {cs ds : List Char} {a b t : Ty}

theorem WaitingTy.power_eq {here : WaitingTy} (h : here.multiplied = none) : here.power t = t := by
  rw [WaitingTy.power, h]

theorem IsAtom.isPower (h : IsAtom cs t) : IsPower cs t := by
  intro e Q items name outer here fresh p rest none apart next
  exact h apart fun bare p' ↦ next here t bare p' rfl (WaitingTy.power_eq none)

theorem IsPower.isWhole (h : IsPower cs t) : IsWhole cs t := by
  intro e Q items name outer here fresh p rest none apart next
  refine h none apart fun here' t' bare p' domains power ↦ next here' t' bare p' ?_
  rw [WaitingTy.value, WaitingTy.value, domains, power, WaitingTy.power_eq none]

/-- Anything stands in parentheses. -/
theorem IsWhole.inParens (h : IsWhole cs t) : IsAtom ('(' :: (cs ++ [')'])) t := by
  intro e Q items name outer here fresh p rest apart next
  simp only [List.cons_append, List.append_assoc]
  refine .symbol rfl rfl (h rfl rfl fun here' t' bare p' value ↦ ?_)
  refine .symbol rfl ?_ (next none _)
  have : here'.value t' = t := value
  rw [← this]
  rfl

/-- A product associates to the left, so what follows the sign is an atom. -/
theorem IsPower.times (ha : IsPower cs a) (hb : IsAtom ds b) :
    IsPower (cs ++ ' ' :: '×' :: ' ' :: ds) (.prod a b) := by
  intro e Q items name outer here fresh p rest none apart next
  simp only [List.cons_append, List.append_assoc]
  refine ha none rfl fun here' t' bare p' domains power ↦ .blank rfl ?_
  refine .symbol rfl rfl (.blank rfl (hb apart fun bare p' ↦ next _ _ _ _ domains ?_))
  rw [← power]
  rfl

/-- An arrow associates to the right, so what follows it is the rest of the type. -/
theorem IsPower.arrow (ha : IsPower cs a) (hb : IsWhole ds b) :
    IsWhole (cs ++ ' ' :: '-' :: '>' :: ' ' :: ds) (.fn a b) := by
  intro e Q items name outer here fresh p rest none apart next
  simp only [List.cons_append, List.append_assoc]
  refine ha none rfl fun here' t' bare p' domains power ↦ .blank rfl ?_
  refine .arrow rfl (.blank rfl (hb rfl apart fun here'' t'' bare p' value ↦ next _ _ _ _ ?_))
  rw [value, WaitingTy.thenTo, domains, power]
  simp [WaitingTy.value, WaitingTy.power, none]

theorem IsAtom.unit : IsAtom ['(', ')'] .unit := by
  intro e Q items name outer here fresh p rest apart next
  exact .symbol rfl rfl (.symbol rfl rfl (next none _))

theorem IsAtom.word {text : String} (h : IsWord text) : IsAtom text.toList (tyOfWord text) := by
  intro e Q items name outer here fresh p rest apart next
  exact .word h apart rfl (next _ _)

/-- Arguments are read one after the other up to the closing bracket. -/
theorem Completes.arguments {e : Entry} {Q : List Item → Prop} {items : List Item} {name : Word}
    {outer : List (WaitingTy × Bracket)} {up : WaitingTy} {f : String} {earlier : List Ty}
    {fresh : Bool} {p : Position} {ts : List Ty} (hts : ts ≠ [])
    (whole : ∀ t ∈ ts, IsWhole t.render.toList t)
    (next : ∀ p', Completes e Q
      ⟨items, .tyOperator name outer up (tyOfArguments f (earlier.reverse ++ ts)) none⟩ p' cs) :
    Completes e Q
      ⟨items, .tyOperand name ((up, .arguments f earlier) :: outer) .nothing fresh⟩ p
      ((", ".intercalate (ts.map Ty.render)).toList ++ ']' :: cs) := by
  induction ts generalizing earlier fresh p with
  | nil => exact (hts rfl).elim
  | cons t ts ih =>
    obtain ⟨first, whole⟩ := List.forall_mem_cons.1 whole
    cases ts with
    | nil =>
      simp only [List.map_cons, List.map_nil, String.intercalate_singleton]
      refine first rfl rfl fun here' t' bare p' value ↦ .symbol rfl ?_ (next _)
      have : here'.value t' = t := value
      rw [← this, ← List.reverse_cons]
      rfl
    | cons t₂ ts =>
      simp only [List.map_cons, String.intercalate_cons_cons, String.toList_append,
        List.append_assoc] at ih ⊢
      refine first rfl rfl fun here' t' bare p' value ↦ ?_
      have : here'.value t' = t := value
      refine .symbol rfl rfl (.blank rfl (ih (List.cons_ne_nil _ _) whole fun p' ↦ ?_))
      rw [this, List.reverse_cons, List.append_assoc]
      exact next p'

/-- No layout stands between a word and its bracket. -/
theorem IsAtom.arguments {f : String} {ts : List Ty} (hf : IsWord f) (hts : ts ≠ [])
    (whole : ∀ t ∈ ts, IsWhole t.render.toList t) :
    IsAtom (f.toList ++ '[' :: ((", ".intercalate (ts.map Ty.render)).toList ++ [']']))
      (tyOfArguments f ts) := by
  intro e Q items name outer here fresh p rest apart next
  have touches (stop : Position) :
      Reading.step e ⟨items, .tyOperator name outer here (tyOfWord f) (some (f, stop))⟩
          ⟨.openBracket, stop, stop.advance '['⟩ =
        .ok ⟨items, .tyOperand name ((here, .arguments f []) :: outer) .nothing false⟩ :=
    if_pos rfl
  simp only [List.cons_append, List.append_assoc]
  exact .word hf rfl rfl (.symbol rfl (touches _) (.arguments hts whole (next none)))

end Types

end Grammar

/-! ### Types in their places -/

namespace Ty

/-- A type as it is written to the right of a product sign and to the left of an arrow. -/
def renderOperand (t : Ty) : String :=
  match t with
  | .fn .. | .prod .. => inParens t.render
  | _ => t.render

/-- A type as it is written to the left of a product sign. -/
def renderFactor (t : Ty) : String :=
  match t with
  | .fn .. => inParens t.render
  | _ => t.render

/-- A type as it is written to the right of an arrow. -/
def renderCodomain (t : Ty) : String :=
  match t with
  | .prod .. => inParens t.render
  | _ => t.render

theorem render_fn (a b : Ty) :
    (fn a b).render = a.renderOperand ++ " -> " ++ b.renderCodomain := rfl

theorem render_prod (a b : Ty) :
    (prod a b).render = a.renderFactor ++ " × " ++ b.renderOperand := rfl

end Ty

namespace Grammar

/-- Whether a type is read back in every place. -/
structure IsWritten (t : Ty) : Prop where
  operand : IsAtom t.renderOperand.toList t
  factor : IsPower t.renderFactor.toList t
  codomain : IsWhole t.renderCodomain.toList t
  whole : IsWhole t.render.toList t

namespace IsWritten

variable {a b : Ty}

theorem fn (ha : IsWritten a) (hb : IsWritten b) : IsWritten (.fn a b) := by
  have whole : IsWhole (Ty.fn a b).render.toList (.fn a b) := by
    simpa [Ty.render_fn] using ha.operand.isPower.arrow hb.codomain
  have operand : IsAtom (Ty.fn a b).renderOperand.toList (.fn a b) := by
    simpa [Ty.renderOperand, Ty.inParens] using whole.inParens
  exact ⟨operand, operand.isPower, whole, whole⟩

theorem prod (ha : IsWritten a) (hb : IsWritten b) : IsWritten (.prod a b) := by
  have factor : IsPower (Ty.prod a b).render.toList (.prod a b) := by
    simpa [Ty.render_prod] using ha.factor.times hb.operand
  have operand : IsAtom (Ty.prod a b).renderOperand.toList (.prod a b) := by
    simpa [Ty.renderOperand, Ty.inParens] using factor.isWhole.inParens
  exact ⟨operand, factor, operand.isPower.isWhole, factor.isWhole⟩

theorem unit : IsWritten .unit :=
  ⟨.unit, IsAtom.unit.isPower, IsAtom.unit.isPower.isWhole, IsAtom.unit.isPower.isWhole⟩

theorem mono {name : String} (h : IsAtom name.toList (.mono name)) : IsWritten (.mono name) :=
  ⟨h, h.isPower, h.isPower.isWhole, h.isPower.isWhole⟩

theorem var {name : String} (h : IsAtom name.toList (.var name)) : IsWritten (.var name) :=
  ⟨h, h.isPower, h.isPower.isWhole, h.isPower.isWhole⟩

end IsWritten

/-- A word stands for the unit, or for a type that is written like it. -/
theorem tyOfWord_cases (text : String) :
    tyOfWord text = .unit ∨ tyOfWord text = .var text ∨ tyOfWord text = .mono text := by
  unfold tyOfWord
  split
  · exact .inl rfl
  · split
    · split
      · exact .inr (.inl rfl)
      · exact .inr (.inr rfl)
    · exact .inr (.inr rfl)

/-- What can be read of a text can be written and read again. -/
theorem Readable.isWritten {t : Ty} (h : Readable t) : IsWritten t := by
  induction h with
  | @word text isWord =>
    have atom := IsAtom.word isWord
    rcases tyOfWord_cases text with kind | kind | kind
    · rw [kind]
      exact .unit
    · rw [kind] at atom ⊢
      exact .var atom
    · rw [kind] at atom ⊢
      exact .mono atom
  | arguments isWord ne_nil _ ih =>
    have atom := IsAtom.arguments isWord ne_nil fun t ht ↦ (ih t ht).whole
    refine .mono ?_
    simpa [tyOfArguments] using atom
  | unit => exact .unit
  | fn _ _ ihDomain ihCodomain => exact ihDomain.fn ihCodomain
  | prod _ _ ihLeft ihRight => exact ihLeft.prod ihRight

end Grammar

end Taskflow
