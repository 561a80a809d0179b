import Taskflow.Proofs.Grammar.Acceptance
import Taskflow.Proofs.Grammar.Places

/-!
# No text has two derivations

The lexemes of a source determine it, up to places (`unplaced_eq_of_lexemesOf_eq`).

Expressions are grouped to the left, so they are taken apart from their end: the last operator
outside of parentheses is found behind which the operand stands (`Level.Opens`).  Types are grouped
to the right as far as arrows go, so they are taken apart from their beginning, and a product as the
list of its factors (`TyPhrase.Determined`).  Items have no end of their own.  Where one ends is
seen by the reader, which begins an item exactly where the derivation does
(`Sentence.lexemes_eq_of_append_eq`).
-/

namespace Taskflow.Grammar

/-! ## Without places -/

/-- A derivation without places. -/
def Phrase.unplaced {l : Level} : Phrase l → Phrase l
  | .name word isName => .name word.unplaced isName
  | .parens inner => .parens inner.unplaced
  | .term x => .term x.unplaced
  | .times left right => .times left.unplaced right.unplaced
  | .factor x => .factor x.unplaced
  | .after outer sign inner => .after outer.unplaced sign inner.unplaced

@[simp] theorem Phrase.lexemes_unplaced {l : Level} (x : Phrase l) :
    x.unplaced.lexemes = x.lexemes := by
  induction x <;> simp_all [unplaced, lexemes]

@[simp] theorem Phrase.bare_tree_unplaced {l : Level} (x : Phrase l) :
    x.unplaced.tree.bare = x.tree.bare := by
  induction x <;> simp_all [unplaced, tree, Expr.bare]

namespace Sentence

/-- A derivation of an item without places. -/
def unplaced : Sentence → Sentence
  | .signature name isName ty _ => .signature name.unplaced isName ty .nowhere
  | .functor keyword name isName body _ =>
    .functor keyword name.unplaced isName body.unplaced .nowhere
  | .expression body _ => .expression body.unplaced .nowhere

@[simp] theorem lexemes_unplaced (s : Sentence) : s.unplaced.lexemes = s.lexemes := by
  cases s <;> simp [unplaced, lexemes]

@[simp] theorem clause_unplaced (s : Sentence) : s.unplaced.item.clause = s.item.clause := by
  cases s <;> simp [unplaced, item, Item.clause]

end Sentence

theorem lexemesOf_unplaced (source : List Sentence) :
    lexemesOf (source.map Sentence.unplaced) = lexemesOf source := by
  simp [lexemesOf, List.flatMap_map]

/-! ## Expressions -/

/-- Whether an expression of a level can begin behind some lexemes: the last of them does not join
it to something in front of it. -/
def Level.Opens : Level → List Lexeme → Prop
  | .term, _ => True
  | .factor, ls => ls.getLast? ≠ some .cross
  | .expression, ls => ls.getLast? ≠ some .cross ∧ ∀ sign : Sign, ls.getLast? ≠ some sign.lexeme

theorem Sign.lexeme_ne_cross (sign : Sign) : sign.lexeme ≠ .cross := by
  cases sign <;> decide

theorem Sign.lexeme_ne_openParen (sign : Sign) : sign.lexeme ≠ .openParen := by
  cases sign <;> decide

theorem Sign.lexeme_injective {sign sign' : Sign} (h : sign.lexeme = sign'.lexeme) :
    sign = sign' := by
  cases sign <;> cases sign' <;> cases h <;> rfl

namespace Phrase

section

variable (front : List Lexeme)

theorem append_lexemes_parens (inner : Phrase .expression) :
    front ++ (parens inner).lexemes =
      (front ++ [.openParen] ++ inner.lexemes) ++ [.closeParen] := by
  simp [lexemes]

theorem append_lexemes_times (left : Phrase .factor) (right : Phrase .term) :
    front ++ (times left right).lexemes = (front ++ left.lexemes ++ [.cross]) ++ right.lexemes := by
  simp [lexemes]

theorem append_lexemes_after (outer : Phrase .expression) (sign : Sign) (inner : Phrase .factor) :
    front ++ (after outer sign inner).lexemes =
      (front ++ outer.lexemes ++ [sign.lexeme]) ++ inner.lexemes := by
  simp [lexemes]

theorem opens_openParen : Level.expression.Opens (front ++ [.openParen]) := by
  simp [Level.Opens, (Sign.lexeme_ne_openParen _).symm]

theorem opens_sign (sign : Sign) : Level.factor.Opens (front ++ [sign.lexeme]) := by
  simp [Level.Opens, sign.lexeme_ne_cross]

end

/-- An expression is seen from its end on, up to where it begins. -/
theorem unplaced_eq_of_append_eq {l : Level} (x y : Phrase l) {front front' : List Lexeme}
    (opens : l.Opens front) (opens' : l.Opens front')
    (same : front ++ x.lexemes = front' ++ y.lexemes) :
    x.unplaced = y.unplaced ∧ front = front' := by
  induction x generalizing front front' with
  | name word isName =>
    cases y with
    | name word' isName' =>
      obtain ⟨before, last⟩ := List.append_inj' same rfl
      have text : word.text = word'.text := by simpa [lexemes] using last
      exact ⟨by simp [unplaced, Word.unplaced, text], before⟩
    | parens inner' =>
      rw [append_lexemes_parens] at same
      cases (List.append_inj' same rfl).2
  | parens inner ih =>
    rw [append_lexemes_parens] at same
    cases y with
    | name word' isName' => cases (List.append_inj' same rfl).2
    | parens inner' =>
      rw [append_lexemes_parens] at same
      obtain ⟨inside, before⟩ := ih inner' (opens_openParen front) (opens_openParen front')
        (List.append_cancel_right same)
      exact ⟨congrArg parens inside, List.append_cancel_right before⟩
  | term x ih =>
    cases y with
    | term y =>
      obtain ⟨operand, before⟩ := ih y trivial trivial same
      exact ⟨congrArg term operand, before⟩
    | times left' right' =>
      rw [append_lexemes_times] at same
      obtain ⟨-, rfl⟩ := ih right' trivial trivial same
      exact (opens List.getLast?_concat).elim
  | times left right ihLeft ihRight =>
    rw [append_lexemes_times] at same
    cases y with
    | term y =>
      obtain ⟨-, rfl⟩ := ihRight y trivial trivial same
      exact (opens' List.getLast?_concat).elim
    | times left' right' =>
      rw [append_lexemes_times] at same
      obtain ⟨sameRight, before⟩ := ihRight right' trivial trivial same
      obtain ⟨sameLeft, before⟩ := ihLeft left' opens opens' (List.append_cancel_right before)
      exact ⟨by rw [unplaced, unplaced, sameLeft, sameRight], before⟩
  | factor x ih =>
    cases y with
    | factor y =>
      obtain ⟨operand, before⟩ := ih y opens.1 opens'.1 same
      exact ⟨congrArg factor operand, before⟩
    | after outer' sign' inner' =>
      rw [append_lexemes_after] at same
      obtain ⟨-, rfl⟩ := ih inner' opens.1 (opens_sign _ sign') same
      exact (opens.2 sign' List.getLast?_concat).elim
  | after outer sign inner ihOuter ihInner =>
    rw [append_lexemes_after] at same
    cases y with
    | factor y =>
      obtain ⟨-, rfl⟩ := ihInner y (opens_sign _ sign) opens'.1 same
      exact (opens'.2 sign List.getLast?_concat).elim
    | after outer' sign' inner' =>
      rw [append_lexemes_after] at same
      obtain ⟨sameInner, before⟩ := ihInner inner' (opens_sign _ sign) (opens_sign _ sign') same
      obtain ⟨operands, signs⟩ := List.append_inj' before rfl
      obtain rfl := Sign.lexeme_injective (List.singleton_inj.1 signs)
      obtain ⟨sameOuter, front_eq⟩ := ihOuter outer' opens opens' operands
      exact ⟨by rw [unplaced, unplaced, sameOuter, sameInner], front_eq⟩

/-- An expression is determined by its lexemes. -/
theorem unplaced_eq_of_lexemes_eq {x y : Phrase .expression} (same : x.lexemes = y.lexemes) :
    x.unplaced = y.unplaced := by
  have opens : Level.expression.Opens [] := ⟨nofun, nofun⟩
  exact (x.unplaced_eq_of_append_eq y opens opens same).1

end Phrase

/-! ## Types -/

/-- Whether a type of a level ends in front of some lexemes: the first of them continues neither a
type of that level nor what it ends with. -/
def TyLevel.Stops : TyLevel → List Lexeme → Prop
  | .atom, ls => ls.head? ≠ some .openBracket
  | .power, ls => ls.head? ≠ some .openBracket ∧ ls.head? ≠ some .cross
  | .type, ls => (ls.head? ≠ some .openBracket ∧ ls.head? ≠ some .cross) ∧ ls.head? ≠ some .arrow
  | .arguments, ls => ((ls.head? ≠ some .openBracket ∧ ls.head? ≠ some .cross) ∧
    ls.head? ≠ some .arrow) ∧ ls.head? ≠ some .comma

namespace TyPhrase

/-- A type or the arguments of a name begin with a word or a parenthesis. -/
theorem exists_lexemes_eq {l : TyLevel} (x : TyPhrase l) :
    ∃ s ls, x.lexemes = s :: ls ∧ s ≠ .closeParen := by
  induction x with
  | word | applied => exact ⟨_, _, rfl, nofun⟩
  | unit | parens => exact ⟨_, _, rfl, nofun⟩
  | atom _ ih | power _ ih | last _ ih => exact ih
  | times _ _ ih | arrow _ _ ih | more _ _ ih =>
    obtain ⟨s, ls, first, other⟩ := ih
    exact ⟨s, _, by rw [lexemes, first]; rfl, other⟩

/-- Whether a type is seen from its beginning on, up to where it ends. -/
def Determined {l : TyLevel} (x : TyPhrase l) : Prop :=
  ∀ (y : TyPhrase l) (rest rest' : List Lexeme), l.Stops rest → l.Stops rest' →
    x.lexemes ++ rest = y.lexemes ++ rest' → x = y ∧ rest = rest'

/-! ### Products -/

/-- The first factor of a product. -/
def first : TyPhrase .power → TyPhrase .atom
  | .atom t => t
  | .times left _ => left.first

/-- The other factors of a product, in order. -/
def others : TyPhrase .power → List (TyPhrase .atom)
  | .atom _ => []
  | .times left right => left.others ++ [right]

theorem eq_foldl_others : (x : TyPhrase .power) → x = x.others.foldl .times (.atom x.first)
  | .atom _ => by simp [others, first]
  | .times left right => by
    rw [others, first, List.foldl_append, ← left.eq_foldl_others]
    rfl

/-- The lexemes of factors behind the first one. -/
def lexemesOfOthers (ts : List (TyPhrase .atom)) : List Lexeme :=
  ts.flatMap fun t ↦ .cross :: t.lexemes

theorem lexemes_eq_append : (x : TyPhrase .power) →
    x.lexemes = x.first.lexemes ++ lexemesOfOthers x.others
  | .atom _ => by simp [others, first, lexemes, lexemesOfOthers]
  | .times left right => by
    rw [lexemes, left.lexemes_eq_append]
    simp [first, others, lexemesOfOthers]

/-- In front of factors a factor ends. -/
theorem stops_lexemesOfOthers (ts : List (TyPhrase .atom)) {rest : List Lexeme}
    (stops : TyLevel.power.Stops rest) : TyLevel.atom.Stops (lexemesOfOthers ts ++ rest) := by
  cases ts with
  | nil => exact stops.1
  | cons t ts => exact nofun

theorem others_eq_of_append_eq {ts ts' : List (TyPhrase .atom)} {rest rest' : List Lexeme}
    (determined : ∀ t ∈ ts, t.Determined) (stops : TyLevel.power.Stops rest)
    (stops' : TyLevel.power.Stops rest')
    (same : lexemesOfOthers ts ++ rest = lexemesOfOthers ts' ++ rest') :
    ts = ts' ∧ rest = rest' := by
  induction ts generalizing ts' with
  | nil =>
    cases ts' with
    | nil => exact ⟨rfl, same⟩
    | cons t' ts' =>
      rw [show rest = _ from same] at stops
      exact (stops.2 rfl).elim
  | cons t ts ih =>
    cases ts' with
    | nil =>
      rw [show rest' = _ from same.symm] at stops'
      exact (stops'.2 rfl).elim
    | cons t' ts' =>
      obtain ⟨here, determined⟩ := List.forall_mem_cons.1 determined
      have factors : t.lexemes ++ (lexemesOfOthers ts ++ rest) =
          t'.lexemes ++ (lexemesOfOthers ts' ++ rest') := by
        simpa [lexemesOfOthers] using same
      obtain ⟨rfl, behind⟩ := here t' _ _ (stops_lexemesOfOthers ts stops)
        (stops_lexemesOfOthers ts' stops') factors
      obtain ⟨rfl, sameRest⟩ := ih determined behind
      exact ⟨rfl, sameRest⟩

/-- A product is seen from its beginning on if its factors are. -/
theorem determined_of_factors {x : TyPhrase .power} (first : x.first.Determined)
    (others : ∀ t ∈ x.others, t.Determined) : x.Determined := by
  intro y rest rest' stops stops' same
  rw [x.lexemes_eq_append, y.lexemes_eq_append, List.append_assoc, List.append_assoc] at same
  obtain ⟨sameFirst, behind⟩ := first y.first _ _ (stops_lexemesOfOthers _ stops)
    (stops_lexemesOfOthers _ stops') same
  obtain ⟨sameOthers, behind⟩ := others_eq_of_append_eq others stops stops' behind
  rw [x.eq_foldl_others, y.eq_foldl_others, sameFirst, sameOthers]
  exact ⟨rfl, behind⟩

/-! ### All types -/

/-- Whether a type is seen from its beginning on; of a product its factors are. -/
def Known : {l : TyLevel} → TyPhrase l → Prop
  | .power, x => x.first.Determined ∧ ∀ t ∈ x.others, t.Determined
  | .atom, x => x.Determined
  | .type, x => x.Determined
  | .arguments, x => x.Determined

theorem Known.determined {l : TyLevel} {x : TyPhrase l} (h : x.Known) : x.Determined :=
  match l with
  | .power => determined_of_factors h.1 h.2
  | .atom | .type | .arguments => h

theorem known {l : TyLevel} (x : TyPhrase l) : x.Known := by
  induction x with
  | word text isWord =>
    intro y rest rest' stops stops' same
    cases y with
    | word text' isWord' =>
      obtain ⟨rfl, behind⟩ := by simpa [lexemes] using same
      exact ⟨rfl, behind⟩
    | applied name isWord' arguments =>
      obtain ⟨rfl, rfl⟩ := by simpa [lexemes] using same
      exact (stops rfl).elim
    | unit | parens => cases same
  | applied name isWord arguments ih =>
    intro y rest rest' stops stops' same
    cases y with
    | word text' isWord' =>
      obtain ⟨rfl, rfl⟩ := by simpa [lexemes] using same
      exact (stops' rfl).elim
    | applied name' isWord' arguments' =>
      obtain ⟨rfl, inside⟩ := by simpa [lexemes] using same
      obtain ⟨rfl, behind⟩ :=
        ih arguments' _ _ (by simp [TyLevel.Stops]) (by simp [TyLevel.Stops]) inside
      exact ⟨rfl, (List.cons.inj behind).2⟩
    | unit | parens => cases same
  | unit =>
    intro y rest rest' stops stops' same
    cases y with
    | word | applied => cases same
    | unit => exact ⟨rfl, by simpa [lexemes] using same⟩
    | parens inner =>
      obtain ⟨s, ls, first, other⟩ := inner.exists_lexemes_eq
      simp [lexemes, first, other.symm] at same
  | parens inner ih =>
    intro y rest rest' stops stops' same
    cases y with
    | word | applied => cases same
    | unit =>
      obtain ⟨s, ls, first, other⟩ := inner.exists_lexemes_eq
      simp [lexemes, first, other] at same
    | parens inner' =>
      have inside : inner.lexemes ++ .closeParen :: rest =
          inner'.lexemes ++ .closeParen :: rest' := by
        simpa [lexemes] using same
      obtain ⟨rfl, behind⟩ :=
        ih inner' _ _ (by simp [TyLevel.Stops]) (by simp [TyLevel.Stops]) inside
      exact ⟨rfl, (List.cons.inj behind).2⟩
  | atom t ih =>
    rw [Known, first, others]
    exact ⟨ih, List.forall_mem_nil _⟩
  | times left right ihLeft ihRight =>
    rw [Known, first, others]
    refine ⟨ihLeft.1, fun t ht ↦ ?_⟩
    rcases List.mem_append.1 ht with ht | ht
    · exact ihLeft.2 t ht
    · exact List.mem_singleton.1 ht ▸ ihRight
  | power t ih =>
    intro y rest rest' stops stops' same
    cases y with
    | power t' =>
      obtain ⟨rfl, behind⟩ := ih.determined t' _ _ stops.1 stops'.1 same
      exact ⟨rfl, behind⟩
    | arrow domain codomain =>
      have operands : t.lexemes ++ rest =
          domain.lexemes ++ (.arrow :: codomain.lexemes ++ rest') := by
        simpa [lexemes] using same
      obtain ⟨-, rfl⟩ := ih.determined domain _ _ stops.1 (by simp [TyLevel.Stops]) operands
      exact (stops.2 rfl).elim
  | arrow domain codomain ihDomain ihCodomain =>
    intro y rest rest' stops stops' same
    have operands :
        domain.lexemes ++ (.arrow :: codomain.lexemes ++ rest) = y.lexemes ++ rest' := by
      simpa [lexemes] using same
    cases y with
    | power t' =>
      obtain ⟨-, rfl⟩ :=
        ihDomain.determined t' _ _ (by simp [TyLevel.Stops]) stops'.1 operands
      exact (stops'.2 rfl).elim
    | arrow domain' codomain' =>
      obtain ⟨rfl, behind⟩ := ihDomain.determined domain' (.arrow :: codomain.lexemes ++ rest)
        (.arrow :: codomain'.lexemes ++ rest') (by simp [TyLevel.Stops]) (by simp [TyLevel.Stops])
        (by simpa [lexemes] using operands)
      obtain ⟨rfl, sameRest⟩ := ihCodomain codomain' _ _ stops stops' (List.cons.inj behind).2
      exact ⟨rfl, sameRest⟩
  | last t ih =>
    intro y rest rest' stops stops' same
    cases y with
    | last t' =>
      obtain ⟨rfl, behind⟩ := ih t' _ _ stops.1 stops'.1 same
      exact ⟨rfl, behind⟩
    | more t' more' =>
      have operands : t.lexemes ++ rest = t'.lexemes ++ (.comma :: more'.lexemes ++ rest') := by
        simpa [lexemes] using same
      obtain ⟨-, rfl⟩ := ih t' _ _ stops.1 (by simp [TyLevel.Stops]) operands
      exact (stops.2 rfl).elim
  | more t more ih ihMore =>
    intro y rest rest' stops stops' same
    have operands : t.lexemes ++ (.comma :: more.lexemes ++ rest) = y.lexemes ++ rest' := by
      simpa [lexemes] using same
    cases y with
    | last t' =>
      obtain ⟨-, rfl⟩ := ih t' _ _ (by simp [TyLevel.Stops]) stops'.1 operands
      exact (stops'.2 rfl).elim
    | more t' more' =>
      obtain ⟨rfl, behind⟩ := ih t' (.comma :: more.lexemes ++ rest)
        (.comma :: more'.lexemes ++ rest')
        (by simp [TyLevel.Stops]) (by simp [TyLevel.Stops]) (by simpa [lexemes] using operands)
      obtain ⟨rfl, sameRest⟩ := ihMore more' _ _ stops stops' (List.cons.inj behind).2
      exact ⟨rfl, sameRest⟩

/-- A type is determined by its lexemes. -/
theorem eq_of_lexemes_eq {x y : TyPhrase .type} (same : x.lexemes = y.lexemes) : x = y := by
  have stops : TyLevel.type.Stops [] := ⟨⟨nofun, nofun⟩, nofun⟩
  exact (x.known.determined y [] [] stops stops (congrArg (· ++ []) same)).1

end TyPhrase

/-! ## Items -/

/-- No token takes a complete item back. -/
theorem Moves.suffix {e : Entry} {tok : Token} {items : List Item} {phase : Phase} {r : Reading}
    (h : Moves e tok items phase r) : items <:+ r.items := by
  induction h with
  | name _ _ ih => exact ih
  | complete | tyComplete => exact List.suffix_cons _ _
  | _ => exact List.suffix_rfl

theorem suffix_of_foldlM {e : Entry} {tokens : List Token} {r r' : Reading}
    (h : tokens.foldlM (Reading.step e) r = .ok r') : r.items <:+ r'.items := by
  induction tokens generalizing r with
  | nil =>
    cases h
    exact List.suffix_rfl
  | cons tok tokens ih =>
    rw [List.foldlM_cons] at h
    obtain ⟨middle, first, rest⟩ := Except.bind_eq_ok_iff.1 h
    exact (moves_of_step first).suffix.trans (ih rest)

/-- Where clauses have been read, all items but the last one are complete. -/
theorem Ready.length_items_le {r : Reading} {cs : List Clause} (h : Ready r cs) :
    r.items.length ≤ cs.length - 1 := by
  cases h <;> simp

/-- Tokens of lexemes, all in one place. -/
def tokensOf (ls : List Lexeme) : List Token := ls.map fun l ↦ ⟨l, .origin, .origin⟩

theorem map_lexeme_tokensOf (ls : List Lexeme) : (tokensOf ls).map Token.lexeme = ls := by
  simp [tokensOf, Function.comp_def]

theorem touches_tokensOf (ls : List Lexeme) : Touches .origin (tokensOf ls) := by
  induction ls with
  | nil => trivial
  | cons l ls ih => exact ⟨fun _ ↦ rfl, ih⟩

namespace Sentence

/-- An item begins with a lexeme that may begin an item. -/
theorem exists_begins (x : Sentence) : ∃ l ls, x.lexemes = l :: ls ∧ l.Begins := by
  cases x with
  | signature name isName => exact ⟨_, _, rfl, isName.ne_o⟩
  | functor keyword name isName =>
    cases keyword with
    | false => exact ⟨_, _, rfl, isName.ne_o⟩
    | true => exact ⟨.word "functor", _, rfl, show "functor" ≠ "o" by decide⟩
  | expression body =>
    rcases body.lexemes_eq with ⟨ls, first⟩ | ⟨name, ls, isName, first⟩
    · exact ⟨_, _, first, trivial⟩
    · exact ⟨_, _, first, isName.ne_o⟩

/-- No item goes on where another one could end and the next begin. -/
theorem not_begins_of_lexemes_eq {x y : Sentence} {l : Lexeme} {ls : List Lexeme}
    (longer : y.lexemes = x.lexemes ++ l :: ls) : ¬l.Begins := by
  intro begins
  -- up to where `x` ends, the reader has read `x`; there the next token completes an item
  obtain ⟨r, reads, ready⟩ := Ready.start.accepts x .origin (tokensOf x.lexemes)
    (map_lexeme_tokensOf _) (touches_tokensOf _)
  obtain ⟨items, before, complete, step⟩ := ready.step ⟨l, .origin, .origin⟩ begins
  -- but all of `y` is one item
  obtain ⟨r', reads', ready'⟩ := Ready.start.accepts y .origin (tokensOf y.lexemes)
    (map_lexeme_tokensOf _) (touches_tokensOf _)
  rw [longer, tokensOf, List.map_append, List.foldlM_append] at reads'
  obtain ⟨r₁, reads₁, rest⟩ := Except.bind_eq_ok_iff.1 reads'
  cases reads.symm.trans reads₁
  rw [List.map_cons, List.foldlM_cons] at rest
  obtain ⟨middle, first, rest⟩ := Except.bind_eq_ok_iff.1 rest
  rw [step] at first
  obtain ⟨phase, -, same⟩ := Except.bind_eq_ok_iff.1 first
  cases same
  have kept := (suffix_of_foldlM rest).length_le
  have one := congrArg List.length complete
  have none := ready'.length_items_le
  simp only [List.length_map, List.length_singleton] at kept one none
  omega

/-- Where an item ends, the text ends or another item begins. -/
theorem eq_nil_or_begins (source : List Sentence) :
    lexemesOf source = [] ∨ ∃ l ls, lexemesOf source = l :: ls ∧ l.Begins := by
  cases source with
  | nil => exact .inl rfl
  | cons x source =>
    obtain ⟨l, ls, first, begins⟩ := x.exists_begins
    exact .inr ⟨l, ls ++ lexemesOf source, by rw [lexemesOf, List.flatMap_cons, first]; rfl, begins⟩

/-- An item is as long in one derivation of a text as in another. -/
theorem lexemes_eq_of_append_eq {x y : Sentence} {source source' : List Sentence}
    (same : x.lexemes ++ lexemesOf source = y.lexemes ++ lexemesOf source') :
    x.lexemes = y.lexemes ∧ lexemesOf source = lexemesOf source' := by
  have whole {x y : Sentence} {source source' : List Sentence} {more : List Lexeme}
      (longer : y.lexemes = x.lexemes ++ more)
      (rest : lexemesOf source = more ++ lexemesOf source') : more = [] := by
    cases more with
    | nil => rfl
    | cons l ls =>
      rcases eq_nil_or_begins source with none | ⟨l', ls', first, begins⟩
      · rw [none] at rest
        cases rest
      · rw [first] at rest
        cases rest
        exact (not_begins_of_lexemes_eq longer begins).elim
  rcases List.append_eq_append_iff.1 same with ⟨more, longer, rest⟩ | ⟨more, longer, rest⟩
  · obtain rfl := whole longer rest
    exact ⟨by simpa using longer.symm, by simpa using rest⟩
  · obtain rfl := whole longer rest
    exact ⟨by simpa using longer, by simpa using rest.symm⟩

/-- What stands in front of the body of a functor is seen from its beginning on. -/
theorem eq_of_functorHead_append_eq {keyword keyword' : Bool} {name name' : String}
    {ls ls' : List Lexeme}
    (same : functorHead keyword name ++ ls = functorHead keyword' name' ++ ls') :
    keyword = keyword' ∧ name = name' ∧ ls = ls' := by
  cases keyword <;> cases keyword' <;> simp_all [functorHead]

/-- The lexemes of a declaration are not those of an expression. -/
theorem mem_lexemes (x : Sentence) : (∃ body span, x = .expression body span) ∨
    .declares ∈ x.lexemes ∨ .equals ∈ x.lexemes := by
  cases x with
  | signature => simp [lexemes]
  | functor => simp [lexemes, functorHead]
  | expression body span => exact .inl ⟨body, span, rfl⟩

/-- An item is determined by its lexemes. -/
theorem unplaced_eq_of_lexemes_eq {x y : Sentence} (same : x.lexemes = y.lexemes) :
    x.unplaced = y.unplaced := by
  -- an expression has none of the signs of a declaration
  have expression {body : Phrase .expression} {span : Span} {y : Sentence}
      (same : body.lexemes = y.lexemes) :
      (Sentence.expression body span).unplaced = y.unplaced := by
    rcases y.mem_lexemes with ⟨body', span', rfl⟩ | declares | equals
    · rw [unplaced, unplaced, Phrase.unplaced_eq_of_lexemes_eq same]
    · exact ((body.ne_of_mem_lexemes _ (same ▸ declares)).1 rfl).elim
    · exact ((body.ne_of_mem_lexemes _ (same ▸ equals)).2 rfl).elim
  cases x with
  | signature name isName ty span =>
    cases y with
    | signature name' isName' ty' span' =>
      obtain ⟨names, types⟩ := by simpa [lexemes] using same
      simp [unplaced, Word.unplaced, names, TyPhrase.eq_of_lexemes_eq types]
    | functor keyword => cases keyword <;> simp [lexemes, functorHead] at same
    | expression => exact (expression same.symm).symm
  | functor keyword name isName body span =>
    cases y with
    | signature => cases keyword <;> simp [lexemes, functorHead] at same
    | functor keyword' name' isName' body' span' =>
      obtain ⟨rfl, names, bodies⟩ := eq_of_functorHead_append_eq same
      simp [unplaced, Word.unplaced, names, Phrase.unplaced_eq_of_lexemes_eq bodies]
    | expression => exact (expression same.symm).symm
  | expression body span => exact expression same

end Sentence

/-- A source is determined by its lexemes, up to places. -/
theorem unplaced_eq_of_lexemesOf_eq {source source' : List Sentence}
    (same : lexemesOf source = lexemesOf source') :
    source.map Sentence.unplaced = source'.map Sentence.unplaced := by
  induction source generalizing source' with
  | nil =>
    cases source' with
    | nil => rfl
    | cons y source' =>
      obtain ⟨l, ls, first, -⟩ := y.exists_begins
      simp [lexemesOf, first] at same
  | cons x source ih =>
    cases source' with
    | nil =>
      obtain ⟨l, ls, first, -⟩ := x.exists_begins
      simp [lexemesOf, first] at same
    | cons y source' =>
      obtain ⟨here, rest⟩ : x.lexemes = y.lexemes ∧ lexemesOf source = lexemesOf source' :=
        Sentence.lexemes_eq_of_append_eq same
      rw [List.map_cons, List.map_cons, Sentence.unplaced_eq_of_lexemes_eq here, ih rest]

end Taskflow.Grammar
