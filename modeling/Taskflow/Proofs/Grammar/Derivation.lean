import Taskflow.Proofs.Grammar.Cutting
import Taskflow.Proofs.Grammar.Phrases

/-!
# Every text that is read has a derivation

What the reader holds at any point is what it has read so far: the operands that wait are derived by
phrases, and the lexemes of these, with the signs and brackets between them, are the lexemes of the
tokens so far.  So a text that is read to its end is the text of a source whose items are the ones
that the reader yields (`exists_source_of_read`).

The families `Pending`, `PendingTy` and `Opened` are `Waiting`, `WaitingTy` and `Bracket` with
derivations in place of trees, and each step of the reader is a step on them.
-/

namespace Taskflow.Grammar

/-! ## Operands of expressions -/

/-- The left operands that wait at one bracket level of an expression, with the sign behind the
composition. -/
structure Pending where
  composed : Option (Phrase .expression × Sign)
  multiplied : Option (Phrase .factor)

namespace Pending

def nothing : Pending := ⟨none, none⟩

def waiting (p : Pending) : Waiting := ⟨p.composed.map (·.1.tree), p.multiplied.map Phrase.tree⟩

def lexemes (p : Pending) : List Lexeme :=
  (p.composed.elim [] fun c ↦ c.1.lexemes ++ [c.2.lexeme]) ++
    p.multiplied.elim [] fun x ↦ x.lexemes ++ [.cross]

def factor (p : Pending) (x : Phrase .term) : Phrase .factor :=
  p.multiplied.elim (.term x) fun l ↦ .times l x

def value (p : Pending) (x : Phrase .term) : Phrase .expression :=
  p.composed.elim (.factor (p.factor x)) fun c ↦ .after c.1 c.2 (p.factor x)

def times (p : Pending) (x : Phrase .term) : Pending := ⟨p.composed, some (p.factor x)⟩

def after (p : Pending) (x : Phrase .term) (sign : Sign) : Pending := ⟨some (p.value x, sign), none⟩

variable (p : Pending) (x : Phrase .term)

@[simp] theorem waiting_nothing : nothing.waiting = .nothing := rfl

@[simp] theorem lexemes_nothing : nothing.lexemes = [] := rfl

@[simp] theorem tree_factor : (p.factor x).tree = p.waiting.factor x.tree := by
  obtain ⟨composed, _ | left⟩ := p <;> rfl

theorem lexemes_factor :
    (p.composed.elim [] fun c ↦ c.1.lexemes ++ [c.2.lexeme]) ++ (p.factor x).lexemes =
      p.lexemes ++ x.lexemes := by
  obtain ⟨composed, _ | left⟩ := p <;> simp [factor, lexemes, Phrase.lexemes]

@[simp] theorem tree_value : (p.value x).tree = p.waiting.value x.tree := by
  have factor := p.tree_factor x
  obtain ⟨_ | ⟨outer, sign⟩, multiplied⟩ := p
  · exact factor
  · exact congrArg _ factor

@[simp] theorem lexemes_value : (p.value x).lexemes = p.lexemes ++ x.lexemes := by
  rw [← lexemes_factor]
  obtain ⟨_ | ⟨outer, sign⟩, multiplied⟩ := p <;> simp [value, factor, Phrase.lexemes]

@[simp] theorem waiting_times : (p.times x).waiting = p.waiting.times x.tree := by
  show Waiting.mk _ (some (p.factor x).tree) = _
  rw [tree_factor]
  rfl

@[simp] theorem lexemes_times : (p.times x).lexemes = p.lexemes ++ x.lexemes ++ [.cross] := by
  rw [← lexemes_factor]
  simp [times, lexemes]

@[simp] theorem waiting_after (sign : Sign) :
    (p.after x sign).waiting = p.waiting.after x.tree := by
  show Waiting.mk (some (p.value x).tree) none = _
  rw [tree_value]
  rfl

@[simp] theorem lexemes_after (sign : Sign) :
    (p.after x sign).lexemes = p.lexemes ++ x.lexemes ++ [sign.lexeme] := by
  show (p.value x).lexemes ++ [sign.lexeme] ++ [] = _
  rw [lexemes_value, List.append_nil]

/-- What stands in front of the innermost of some parentheses, the innermost first. -/
def enclosing : List Pending → List Lexeme
  | [] => []
  | p :: outer => enclosing outer ++ p.lexemes ++ [.openParen]

end Pending

/-! ## Operands of types -/

/-- The left operands that wait at one bracket level of a type. -/
structure PendingTy where
  domains : List (TyPhrase .power)
  multiplied : Option (TyPhrase .power)

/-- What opened a bracket level of a type. -/
inductive Opened where
  | paren
  | arguments (name : String) (isWord : IsWord name) (earlier : List (TyPhrase .type))

namespace PendingTy

def nothing : PendingTy := ⟨[], none⟩

def waiting (p : PendingTy) : WaitingTy :=
  ⟨p.domains.map TyPhrase.value, p.multiplied.map TyPhrase.value⟩

/-- The lexemes of domains, the latest first. -/
def lexemesOfDomains : List (TyPhrase .power) → List Lexeme
  | [] => []
  | d :: earlier => lexemesOfDomains earlier ++ d.lexemes ++ [.arrow]

def lexemes (p : PendingTy) : List Lexeme :=
  lexemesOfDomains p.domains ++ p.multiplied.elim [] fun x ↦ x.lexemes ++ [.cross]

def power (p : PendingTy) (t : TyPhrase .atom) : TyPhrase .power :=
  p.multiplied.elim (.atom t) fun l ↦ .times l t

def value (p : PendingTy) (t : TyPhrase .atom) : TyPhrase .type :=
  p.domains.foldl (fun codomain d ↦ .arrow d codomain) (.power (p.power t))

def times (p : PendingTy) (t : TyPhrase .atom) : PendingTy := ⟨p.domains, some (p.power t)⟩

def thenTo (p : PendingTy) (t : TyPhrase .atom) : PendingTy := ⟨p.power t :: p.domains, none⟩

variable (p : PendingTy) (t : TyPhrase .atom)

@[simp] theorem waiting_nothing : nothing.waiting = .nothing := rfl

@[simp] theorem lexemes_nothing : nothing.lexemes = [] := rfl

@[simp] theorem value_power : (p.power t).value = p.waiting.power t.value := by
  obtain ⟨domains, _ | left⟩ := p <;> rfl

theorem lexemes_power :
    lexemesOfDomains p.domains ++ (p.power t).lexemes = p.lexemes ++ t.lexemes := by
  obtain ⟨domains, _ | left⟩ := p <;> simp [power, lexemes, TyPhrase.lexemes]

theorem value_foldl (domains : List (TyPhrase .power)) (codomain : TyPhrase .type) :
    (domains.foldl (fun codomain d ↦ .arrow d codomain) codomain).value =
      (domains.map TyPhrase.value).foldl (fun codomain d ↦ Ty.fn d codomain) codomain.value := by
  induction domains generalizing codomain with
  | nil => rfl
  | cons d domains ih => exact ih _

theorem lexemes_foldl (domains : List (TyPhrase .power)) (codomain : TyPhrase .type) :
    (domains.foldl (fun codomain d ↦ .arrow d codomain) codomain).lexemes =
      lexemesOfDomains domains ++ codomain.lexemes := by
  induction domains generalizing codomain with
  | nil => rfl
  | cons d domains ih =>
    rw [List.foldl_cons, ih, lexemesOfDomains]
    simp [TyPhrase.lexemes]

@[simp] theorem value_value : (p.value t).value = p.waiting.value t.value := by
  rw [value, value_foldl]
  exact congrArg
    (fun c ↦ (p.domains.map TyPhrase.value).foldl (fun codomain d ↦ Ty.fn d codomain) c)
    (p.value_power t)

@[simp] theorem lexemes_value : (p.value t).lexemes = p.lexemes ++ t.lexemes := by
  rw [value, lexemes_foldl, ← lexemes_power]
  rfl

@[simp] theorem waiting_times : (p.times t).waiting = p.waiting.times t.value := by
  show WaitingTy.mk _ (some (p.power t).value) = _
  rw [value_power]
  rfl

@[simp] theorem lexemes_times : (p.times t).lexemes = p.lexemes ++ t.lexemes ++ [.cross] := by
  rw [← lexemes_power]
  simp [times, lexemes]

@[simp] theorem waiting_thenTo : (p.thenTo t).waiting = p.waiting.thenTo t.value := by
  show WaitingTy.mk ((p.power t).value :: _) none = _
  rw [value_power]
  rfl

@[simp] theorem lexemes_thenTo : (p.thenTo t).lexemes = p.lexemes ++ t.lexemes ++ [.arrow] := by
  rw [← lexemes_power]
  simp [thenTo, lexemes, lexemesOfDomains]

end PendingTy

/-- The last argument of a name and the ones before it, the latest first. -/
def argumentsOf (last : TyPhrase .arguments) : List (TyPhrase .type) → TyPhrase .arguments
  | [] => last
  | t :: earlier => argumentsOf (.more t last) earlier

theorem value_argumentsOf (last : TyPhrase .arguments) (earlier : List (TyPhrase .type)) :
    (argumentsOf last earlier).value =
      (earlier.map TyPhrase.value).reverse ++ last.value := by
  induction earlier generalizing last with
  | nil => rfl
  | cons t earlier ih =>
    rw [argumentsOf, ih]
    simp [TyPhrase.value]

namespace Opened

def bracket : Opened → Bracket
  | .paren => .paren
  | .arguments name _ earlier => .arguments name (earlier.map TyPhrase.value)

theorem eq_paren {o : Opened} (h : o.bracket = .paren) : o = .paren := by
  cases o with
  | paren => rfl
  | arguments => cases h

theorem exists_arguments {o : Opened} {name : String} {ts : List Ty}
    (h : o.bracket = .arguments name ts) :
    ∃ isWord earlier, o = .arguments name isWord earlier ∧ earlier.map TyPhrase.value = ts := by
  cases o with
  | paren => cases h
  | arguments name isWord earlier =>
    obtain ⟨rfl, rfl⟩ := Bracket.arguments.inj h
    exact ⟨isWord, earlier, rfl, rfl⟩

/-- The lexemes of complete arguments, the latest first. -/
def lexemesOfArguments : List (TyPhrase .type) → List Lexeme
  | [] => []
  | t :: earlier => lexemesOfArguments earlier ++ t.lexemes ++ [.comma]

def lexemes : Opened → List Lexeme
  | .paren => [.openParen]
  | .arguments name _ earlier => [.word name, .openBracket] ++ lexemesOfArguments earlier

theorem lexemes_argumentsOf (last : TyPhrase .arguments) (earlier : List (TyPhrase .type)) :
    (argumentsOf last earlier).lexemes = lexemesOfArguments earlier ++ last.lexemes := by
  induction earlier generalizing last with
  | nil => rfl
  | cons t earlier ih =>
    rw [argumentsOf, ih, lexemesOfArguments]
    simp [TyPhrase.lexemes]

/-- A bracket level and what waits in front of it. -/
def frame (f : PendingTy × Opened) : WaitingTy × Bracket := (f.1.waiting, f.2.bracket)

/-- What stands in front of the innermost of some brackets, the innermost first. -/
def enclosing : List (PendingTy × Opened) → List Lexeme
  | [] => []
  | f :: outer => enclosing outer ++ f.1.lexemes ++ f.2.lexemes

end Opened

/-! ## What the reader has read -/

/-- Whether lexemes stand in front of an expression of an item. -/
def Goal.Follows : Goal → List Lexeme → Prop
  | .root _, ls => ls = []
  | .body _ name, ls => IsName name.text ∧ ∃ keyword, ls = functorHead keyword name.text

/-- Whether the reader is in a phase when it has read these lexemes of an item. -/
def Phase.Follows : Phase → List Lexeme → Prop
  | .item, ls => ls = []
  | .name _ word, ls => IsName word.text ∧ ls = [.word word.text]
  | .keyword .., ls => ls = [.word "functor"]
  | .functorName _ _ word, ls => IsName word.text ∧ ls = [.word "functor", .word word.text]
  | .operand goal outer here, ls =>
    ∃ (head : List Lexeme) (ps : List Pending) (p : Pending), goal.Follows head ∧
      ps.map Pending.waiting = outer ∧ p.waiting = here ∧
      ls = head ++ Pending.enclosing ps ++ p.lexemes
  | .operator goal outer here x _, ls =>
    ∃ (head : List Lexeme) (ps : List Pending) (p : Pending) (y : Phrase .term), goal.Follows head ∧
      ps.map Pending.waiting = outer ∧ p.waiting = here ∧ y.tree = x ∧
      ls = head ++ Pending.enclosing ps ++ p.lexemes ++ y.lexemes
  | .tyOperand word outer here fresh, ls => IsName word.text ∧
    ∃ (fs : List (PendingTy × Opened)) (p : PendingTy), fs.map Opened.frame = outer ∧
      p.waiting = here ∧ (fresh = true → p = .nothing ∧ ∃ up rest, fs = (up, .paren) :: rest) ∧
      ls = [.word word.text, .declares] ++ Opened.enclosing fs ++ p.lexemes
  | .tyOperator word outer here t bare, ls => IsName word.text ∧
    ∃ (fs : List (PendingTy × Opened)) (p : PendingTy) (y : TyPhrase .atom),
      fs.map Opened.frame = outer ∧ p.waiting = here ∧ y.value = t ∧
      (∀ b, bare = some b → ∃ isWord, y = .word b.1 isWord) ∧
      ls = [.word word.text, .declares] ++ Opened.enclosing fs ++ p.lexemes ++ y.lexemes

/-- Whether the reader has read these lexemes: those of the items that are complete, and then those
of the item in progress. -/
def Reading.Follows (r : Reading) (ls : List Lexeme) : Prop :=
  ∃ source rest, source.map Sentence.item = r.items.reverse ∧ r.phase.Follows rest ∧
    ls = lexemesOf source ++ rest

theorem Begins.follows {e : Entry} {before : List Construct} {tok : Token} {phase : Phase}
    (legible : tok.Legible) (h : Begins e before tok phase) : phase.Follows [tok.lexeme] := by
  cases h with
  | keyword _ lexeme => rw [lexeme]; rfl
  | paren _ lexeme => exact ⟨[], [.nothing], .nothing, rfl, rfl, rfl, by rw [lexeme]; rfl⟩
  | name _ lexeme ne_functor ne_o =>
    exact ⟨⟨legible _ lexeme, ne_functor, ne_o⟩, by rw [lexeme]⟩

/-- An expression that is complete makes a sentence. -/
theorem Goal.Follows.exists_sentence {goal : Goal} {head : List Lexeme} (h : goal.Follows head)
    (p : Pending) (x : Phrase .term) (stop next : Position) :
    ∃ s : Sentence, s.item = goal.item p.waiting x.tree stop next ∧
      s.lexemes = head ++ p.lexemes ++ x.lexemes := by
  cases goal with
  | root start =>
    obtain rfl : head = [] := h
    exact ⟨.expression (p.value x) _, by simp [Sentence.item, Goal.item]; rfl,
      by simp [Sentence.lexemes]⟩
  | body start name =>
    obtain ⟨isName, keyword, rfl⟩ := h
    exact ⟨.functor keyword name isName (p.value x) _, by simp [Sentence.item, Goal.item]; rfl,
      by simp [Sentence.lexemes]⟩

/-- A token of a text is read as the next lexeme. -/
theorem Moves.follows {e : Entry} {tok : Token} {items : List Item} {phase : Phase} {r : Reading}
    (legible : tok.Legible) {source : List Sentence}
    (complete : source.map Sentence.item = items.reverse) {rest : List Lexeme}
    (follows : phase.Follows rest) (h : Moves e tok items phase r) :
    r.Follows (lexemesOf source ++ rest ++ [tok.lexeme]) := by
  -- the token belongs to the item in progress
  have within {phase' : Phase} (follows' : phase'.Follows (rest ++ [tok.lexeme])) :
      Reading.Follows ⟨items, phase'⟩ (lexemesOf source ++ rest ++ [tok.lexeme]) :=
    ⟨source, _, complete, follows', List.append_assoc _ _ _⟩
  -- or it begins the next one
  have next {s : Sentence} {phase' : Phase} (lexemes : s.lexemes = rest)
      (begins : phase'.Follows [tok.lexeme]) :
      Reading.Follows ⟨s.item :: items, phase'⟩ (lexemesOf source ++ rest ++ [tok.lexeme]) :=
    ⟨source ++ [s], _, by simp [complete], begins, by simp [lexemesOf, lexemes]⟩
  -- a type that is no bare word has no word to account for
  have noWord (y : TyPhrase .atom) (b : String × Position) (h : none = some b) :
      ∃ isWord, y = .word b.1 isWord := nomatch h
  induction h with
  | begin begins =>
    obtain rfl : rest = [] := follows
    exact within (begins.follows legible)
  | signature lexeme =>
    obtain ⟨isName, rfl⟩ := follows
    exact within ⟨isName, [], .nothing, rfl, rfl, nofun, by rw [lexeme]; rfl⟩
  | functor _ lexeme =>
    obtain ⟨isName, rfl⟩ := follows
    refine within ⟨_, [], .nothing, ⟨isName, false, rfl⟩, rfl, rfl, ?_⟩
    rw [lexeme]
    rfl
  | @name before word _ _ _ ih =>
    obtain ⟨isName, rfl⟩ := follows
    exact ih ⟨[], [], .nothing, .name word isName, rfl, rfl, rfl, rfl, rfl⟩
  | keyword lexeme ne_functor ne_o =>
    obtain rfl : rest = _ := follows
    exact within ⟨⟨legible _ lexeme, ne_functor, ne_o⟩, by rw [lexeme]; rfl⟩
  | functorName lexeme =>
    obtain ⟨isName, rfl⟩ := follows
    refine within ⟨_, [], .nothing, ⟨isName, true, rfl⟩, rfl, rfl, ?_⟩
    rw [lexeme]
    rfl
  | @word goal outer here text lexeme ne_functor ne_o =>
    obtain ⟨head, ps, p, heads, rfl, rfl, rfl⟩ := follows
    have isName : IsName text := ⟨legible _ lexeme, ne_functor, ne_o⟩
    exact within ⟨head, ps, p, .name ⟨text, tok.span⟩ isName, heads, rfl, rfl, rfl,
      by rw [lexeme]; rfl⟩
  | paren lexeme =>
    obtain ⟨head, ps, p, heads, rfl, rfl, rfl⟩ := follows
    exact within ⟨head, p :: ps, .nothing, heads, rfl, rfl, by simp [lexeme, Pending.enclosing]⟩
  | times lexeme =>
    obtain ⟨head, ps, p, y, heads, rfl, rfl, rfl, rfl⟩ := follows
    exact within ⟨head, ps, p.times y, heads, rfl, by simp, by simp [lexeme]⟩
  | after lexeme =>
    obtain ⟨head, ps, p, y, heads, rfl, rfl, rfl, rfl⟩ := follows
    obtain ⟨sign, same⟩ : ∃ sign : Sign, tok.lexeme = sign.lexeme :=
      lexeme.elim (⟨.circle, ·⟩) (⟨.letter, ·⟩)
    exact within ⟨head, ps, p.after y sign, heads, rfl, by simp, by simp [same]⟩
  | close lexeme =>
    obtain ⟨head, ps, p, y, heads, frames, rfl, rfl, rfl⟩ := follows
    obtain ⟨up, ps, rfl, rfl, rfl⟩ := List.map_eq_cons_iff.1 frames
    exact within ⟨head, ps, up, .parens (p.value y), heads, rfl, rfl, by simp [Phrase.tree],
      by simp [lexeme, Pending.enclosing, Phrase.lexemes]⟩
  | complete begins =>
    obtain ⟨head, ps, p, y, heads, frames, rfl, rfl, rfl⟩ := follows
    obtain rfl := List.map_eq_nil_iff.1 frames
    obtain ⟨s, item, lexemes⟩ := heads.exists_sentence p y _ _
    rw [← item]
    exact next (by simp [lexemes, Pending.enclosing]) (begins.follows legible)
  | @tyWord word outer here fresh text lexeme =>
    obtain ⟨isName, fs, p, rfl, rfl, -, rfl⟩ := follows
    have isWord := legible _ lexeme
    refine within ⟨isName, fs, p, .word text isWord, rfl, rfl, rfl, ?_, by rw [lexeme]; rfl⟩
    rintro b ⟨⟩
    exact ⟨isWord, rfl⟩
  | tyParen lexeme =>
    obtain ⟨isName, fs, p, rfl, rfl, -, rfl⟩ := follows
    exact within ⟨isName, (p, .paren) :: fs, .nothing, rfl, rfl, fun _ ↦ ⟨rfl, p, fs, rfl⟩,
      by simp [lexeme, Opened.enclosing, Opened.lexemes]⟩
  | tyUnit lexeme =>
    obtain ⟨isName, fs, p, frames, rfl, fresh, rfl⟩ := follows
    obtain ⟨rfl, up, fs, rfl⟩ := fresh rfl
    obtain ⟨same, rfl⟩ := List.cons.inj frames
    obtain ⟨rfl, -⟩ := Prod.mk.inj same
    exact within ⟨isName, fs, up, .unit, rfl, rfl, rfl, noWord _,
      by simp [lexeme, Opened.enclosing, Opened.lexemes, TyPhrase.lexemes]⟩
  | tyTimes lexeme =>
    obtain ⟨isName, fs, p, y, rfl, rfl, rfl, -, rfl⟩ := follows
    exact within ⟨isName, fs, p.times y, rfl, by simp, nofun, by simp [lexeme]⟩
  | tyArrow lexeme =>
    obtain ⟨isName, fs, p, y, rfl, rfl, rfl, -, rfl⟩ := follows
    exact within ⟨isName, fs, p.thenTo y, rfl, by simp, nofun, by simp [lexeme]⟩
  | tyClose lexeme =>
    obtain ⟨isName, fs, p, y, frames, rfl, rfl, -, rfl⟩ := follows
    obtain ⟨⟨up, opened⟩, fs, rfl, same, rfl⟩ := List.map_eq_cons_iff.1 frames
    obtain ⟨rfl, bracket⟩ := Prod.mk.inj same
    obtain rfl := Opened.eq_paren bracket
    exact within ⟨isName, fs, up, .parens (p.value y), rfl, rfl, p.value_value y, noWord _,
      by simp [lexeme, Opened.enclosing, Opened.lexemes, TyPhrase.lexemes]⟩
  | tyBracket lexeme =>
    obtain ⟨isName, fs, p, y, rfl, rfl, -, bare, rfl⟩ := follows
    obtain ⟨isWord, rfl⟩ := bare _ rfl
    exact within ⟨isName, (p, .arguments _ isWord []) :: fs, .nothing, rfl, rfl, nofun,
      by simp [lexeme, Opened.enclosing, Opened.lexemes, Opened.lexemesOfArguments,
        TyPhrase.lexemes]⟩
  | tyComma lexeme =>
    obtain ⟨isName, fs, p, y, frames, rfl, rfl, -, rfl⟩ := follows
    obtain ⟨⟨up, opened⟩, fs, rfl, same, rfl⟩ := List.map_eq_cons_iff.1 frames
    obtain ⟨rfl, bracket⟩ := Prod.mk.inj same
    obtain ⟨isWord, earlier, rfl, rfl⟩ := Opened.exists_arguments bracket
    refine within ⟨isName, (up, .arguments _ isWord (p.value y :: earlier)) :: fs, .nothing, ?_,
      rfl, nofun, ?_⟩
    · simp [Opened.frame, Opened.bracket]
    · simp [lexeme, Opened.enclosing, Opened.lexemes, Opened.lexemesOfArguments]
  | tyArguments lexeme =>
    obtain ⟨isName, fs, p, y, frames, rfl, rfl, -, rfl⟩ := follows
    obtain ⟨⟨up, opened⟩, fs, rfl, same, rfl⟩ := List.map_eq_cons_iff.1 frames
    obtain ⟨rfl, bracket⟩ := Prod.mk.inj same
    obtain ⟨isWord, earlier, rfl, rfl⟩ := Opened.exists_arguments bracket
    refine within ⟨isName, fs, up,
      .applied _ isWord (argumentsOf (.last (p.value y)) earlier), rfl, rfl, ?_, noWord _, ?_⟩
    · simp [TyPhrase.value, value_argumentsOf]
    · simp [lexeme, Opened.enclosing, Opened.lexemes, Opened.lexemes_argumentsOf,
        TyPhrase.lexemes]
  | @tyComplete word here t bare phase' begins =>
    obtain ⟨isName, fs, p, y, frames, rfl, rfl, -, rfl⟩ := follows
    obtain rfl := List.map_eq_nil_iff.1 frames
    let s := Sentence.signature word isName (p.value y) ⟨word.span.start, tok.start⟩
    have lexemes : s.lexemes = [.word word.text, .declares] ++ Opened.enclosing [] ++ p.lexemes ++
        y.lexemes := by simp [s, Sentence.lexemes, Opened.enclosing]
    rw [← p.value_value y]
    exact next lexemes (begins.follows legible)

/-- The end of a text completes the last sentence. -/
theorem Finishes.follows {p : Position} {phase : Phase} {last : List Item} {rest : List Lexeme}
    (follows : phase.Follows rest) (h : Finishes p phase last) :
    ∃ source : List Sentence, source.map Sentence.item = last ∧ lexemesOf source = rest := by
  cases h with
  | item =>
    obtain rfl : rest = [] := follows
    exact ⟨[], rfl, rfl⟩
  | @name before word =>
    obtain ⟨isName, rfl⟩ := follows
    exact ⟨[.expression (.factor (.term (.name word isName))) ⟨word.span.start, p⟩], rfl, rfl⟩
  | expression =>
    obtain ⟨head, ps, p, y, heads, frames, rfl, rfl, rfl⟩ := follows
    obtain rfl := List.map_eq_nil_iff.1 frames
    obtain ⟨s, item, lexemes⟩ := heads.exists_sentence p y _ _
    exact ⟨[s], by rw [List.map_singleton, item], by simp [lexemesOf, lexemes, Pending.enclosing]⟩
  | @signature word here t bare =>
    obtain ⟨isName, fs, q, y, frames, rfl, rfl, -, rfl⟩ := follows
    obtain rfl := List.map_eq_nil_iff.1 frames
    refine ⟨[.signature word isName (q.value y) ⟨word.span.start, p⟩], ?_, ?_⟩
    · simp [Sentence.item]
    · simp [lexemesOf, Sentence.lexemes, Opened.enclosing]

/-! ## What the reader lets through -/

/-- An item begins with a word or a parenthesis. -/
theorem Begins.lexeme {e : Entry} {before : List Construct} {tok : Token} {phase : Phase}
    (h : Begins e before tok phase) :
    tok.lexeme = .openParen ∨ ∃ text, tok.lexeme = .word text := by
  cases h with
  | keyword _ lexeme => exact .inr ⟨_, lexeme⟩
  | paren _ lexeme => exact .inl lexeme
  | name _ lexeme => exact .inr ⟨_, lexeme⟩

/-- A token that is read is no character left over. -/
theorem Moves.not_isStray {e : Entry} {tok : Token} {items : List Item} {phase : Phase}
    {r : Reading} (h : Moves e tok items phase r) : ¬tok.lexeme.IsStray := by
  rintro ⟨c, stray⟩
  induction h with
  | begin begins | complete begins | tyComplete begins =>
    rcases begins.lexeme with lexeme | ⟨text, lexeme⟩ <;> cases stray.symm.trans lexeme
  | name _ _ ih => exact ih
  | after lexeme => rcases lexeme with lexeme | lexeme <;> cases stray.symm.trans lexeme
  | functor _ lexeme => cases stray.symm.trans lexeme
  | _ lexeme => cases stray.symm.trans lexeme

/-- Whether a word that arguments may follow ends at `q`. -/
def Phase.EndsAt (q : Position) : Phase → Prop
  | .tyOperator _ _ _ _ bare => ∀ b, bare = some b → b.2 = q
  | _ => True

theorem Begins.endsAt {e : Entry} {before : List Construct} {tok : Token} {phase : Phase}
    (h : Begins e before tok phase) (q : Position) : phase.EndsAt q := by
  cases h <;> trivial

/-- An opening bracket that is read touches the token before it. -/
theorem Moves.touches {e : Entry} {tok : Token} {items : List Item} {phase : Phase} {r : Reading}
    {q : Position} (ends : phase.EndsAt q) (h : Moves e tok items phase r) :
    (tok.lexeme = .openBracket → tok.start = q) ∧ r.phase.EndsAt tok.stop := by
  -- most tokens are no bracket
  have other {l : Lexeme} (lexeme : tok.lexeme = l) (differs : l ≠ .openBracket) :
      tok.lexeme = .openBracket → tok.start = q :=
    fun bracket ↦ (differs (lexeme.symm.trans bracket)).elim
  induction h with
  | begin begins | complete begins | tyComplete begins =>
    refine ⟨?_, begins.endsAt _⟩
    rcases begins.lexeme with lexeme | ⟨text, lexeme⟩
    · exact other lexeme nofun
    · exact other lexeme nofun
  | name _ _ ih => exact ih trivial
  | functor _ lexeme => exact ⟨other lexeme nofun, trivial⟩
  | after lexeme =>
    exact ⟨lexeme.elim (other · nofun) (other · nofun), trivial⟩
  | tyWord lexeme =>
    refine ⟨other lexeme nofun, ?_⟩
    rintro b ⟨⟩
    rfl
  | tyBracket => exact ⟨fun _ ↦ ends _ rfl, trivial⟩
  | tyUnit lexeme | tyClose lexeme | tyArguments lexeme => exact ⟨other lexeme nofun, nofun⟩
  | _ lexeme => exact ⟨other lexeme nofun, trivial⟩

/-- What holds of a reading of the tokens `before`: it has read their lexemes, none of them is left
over, and brackets touch what is in front of them. -/
structure Reading.Behind (before : List Token) (r : Reading) : Prop where
  follows : r.Follows (before.map Token.lexeme)
  known : ∀ t ∈ before, ¬t.lexeme.IsStray
  touches : Touches .origin before
  ends : r.phase.EndsAt (lastStop .origin before)

theorem Reading.Behind.start (e : Entry) (p : Position) : Behind [] ⟨[], e.start p⟩ := by
  refine ⟨⟨[], [], rfl, ?_, rfl⟩, nofun, trivial, ?_⟩
  · cases e with
    | program | signatures => rfl
    | expression => exact ⟨[], [], .nothing, rfl, rfl, rfl, rfl⟩
  · cases e <;> trivial

theorem Reading.Behind.move {e : Entry} {before : List Token} {tok : Token} {r r' : Reading}
    (behind : r.Behind before) (legible : tok.Legible) (moves : Moves e tok r.items r.phase r') :
    r'.Behind (before ++ [tok]) := by
  obtain ⟨⟨source, partial', complete, follows, lexemes⟩, known, touches, ends⟩ := behind
  obtain ⟨touches', ends'⟩ := moves.touches ends
  refine ⟨?_, ?_, touches_append.2 ⟨touches, touches', trivial⟩, ?_⟩
  · rw [List.map_append, lexemes]
    exact moves.follows legible complete follows
  · intro t ht
    rcases List.mem_append.1 ht with ht | ht
    · exact known t ht
    · obtain rfl := List.mem_singleton.1 ht
      exact moves.not_isStray
  · rw [lastStop_concat]
    exact ends'

theorem tokenize_legible (text : String) : ∀ t ∈ (tokenize text).list, t.Legible :=
  scan_legible (m := .between) trivial _ _

/-- A text that is read is the text of a source, and its items are those of the source. -/
theorem exists_source_of_read {e : Entry} {text : String} {items : List Item}
    (h : read e text = .ok items) :
    ∃ source : List Sentence, source.map Sentence.item = items ∧
      Snug (lexemesOf source) text.toList := by
  obtain ⟨r, last, ⟨before, all, behind⟩, finishes, rfl⟩ := read_spec h
    (P := fun r rest ↦ ∃ before, before ++ rest = (tokenize text).list ∧ r.Behind before)
    (fun p ↦ ⟨[], rfl, .start e p⟩)
    fun {r tok rest r'} held moves ↦ by
      obtain ⟨before, all, behind⟩ := held
      have mem : tok ∈ (tokenize text).list := all ▸ List.mem_append_right _ List.mem_cons_self
      exact ⟨before ++ [tok], by simpa using all, behind.move (tokenize_legible text tok mem) moves⟩
  rw [List.append_nil] at all
  subst all
  obtain ⟨source, rest, complete, follows, lexemes⟩ := behind.follows
  obtain ⟨source', items, rfl⟩ := finishes.follows follows
  refine ⟨source ++ source', by rw [List.map_append, complete, items], ?_⟩
  have snug := snug_of_scan text.toList behind.known behind.touches
  rw [lexemesOf, List.flatMap_append]
  exact lexemes ▸ snug

end Taskflow.Grammar
