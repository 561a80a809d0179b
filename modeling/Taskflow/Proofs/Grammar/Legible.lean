import Taskflow.Proofs.Grammar.Order

/-!
# What texts can say

Not every tree and not every type comes from a text.  The names that the reader yields are words
other than the keywords, and the types that it yields are `Readable`: their names are words, or
words with arguments that are written as the reader writes them.  `Item.Legible` says so of an item,
and every item of a text is legible (`read_legible`).

The reader keeps this from token to token: `Phase.Legible` says it of everything that a phase holds.
-/

namespace Taskflow.Grammar

/-- A run of letters, digits and underscores. -/
structure IsWord (text : String) : Prop where
  ne_nil : text.toList ≠ []
  chars : ∀ c ∈ text.toList, isWordChar c = true

/-- A word that can name something. -/
structure IsName (text : String) : Prop where
  word : IsWord text
  ne_functor : text ≠ "functor"
  ne_o : text ≠ "o"

instance (text : String) : Decidable (IsWord text) :=
  decidable_of_iff (text.toList ≠ [] ∧ text.toList.all isWordChar = true)
    ⟨fun h ↦ ⟨h.1, List.all_eq_true.1 h.2⟩, fun h ↦ ⟨h.ne_nil, List.all_eq_true.2 h.chars⟩⟩

instance (text : String) : Decidable (IsName text) :=
  decidable_of_iff (IsWord text ∧ text ≠ "functor" ∧ text ≠ "o")
    ⟨fun h ↦ ⟨h.1, h.2.1, h.2.2⟩, fun h ↦ ⟨h.word, h.ne_functor, h.ne_o⟩⟩

/-- The types that a text can denote. -/
inductive Readable : Ty → Prop
  | word {text} : IsWord text → Readable (tyOfWord text)
  | arguments {name ts} : IsWord name → ts ≠ [] → (∀ t ∈ ts, Readable t) →
      Readable (tyOfArguments name ts)
  | unit : Readable .unit
  | fn {a b} : Readable a → Readable b → Readable (.fn a b)
  | prod {a b} : Readable a → Readable b → Readable (.prod a b)

/-! ## Tokens -/

/-- A token that is no word, or a word as texts have them. -/
def Token.Legible (t : Token) : Prop := ∀ text, t.lexeme = .word text → IsWord text

/-- Whether a word in progress consists of the characters of words. -/
def Mode.Legible : Mode → Prop
  | .word _ letters => letters ≠ [] ∧ ∀ c ∈ letters, isWordChar c = true
  | _ => True

namespace Mode

theorem Legible.close {m : Mode} (h : m.Legible) (p : Position) : ∀ t ∈ m.close p, t.Legible := by
  cases m with
  | between | comment => nofun
  | word start letters =>
    intro t ht text same
    obtain rfl := List.mem_singleton.1 ht
    obtain rfl := Lexeme.word.inj same
    constructor
    · simpa using h.1
    · simpa using h.2
  | colon start | hyphen start =>
    intro t ht text same
    obtain rfl := List.mem_singleton.1 ht
    cases same

/-- No symbol is a word. -/
theorem single?_ne_word (c : Char) (text : String) : single? c ≠ some (.word text) := by
  unfold single?
  split <;> nofun

theorem legible_open' (p : Position) (c : Char) :
    (open' p c).2.Legible ∧ ∀ t ∈ (open' p c).1, t.Legible := by
  unfold open'
  split
  · exact ⟨trivial, nofun⟩
  split
  · exact ⟨trivial, nofun⟩
  split
  next letter => exact ⟨⟨List.cons_ne_nil _ _, by simpa using letter⟩, nofun⟩
  split
  · exact ⟨trivial, nofun⟩
  split
  · exact ⟨trivial, nofun⟩
  · refine ⟨trivial, fun t ht text same ↦ ?_⟩
    obtain rfl := List.mem_singleton.1 ht
    dsimp only at same
    cases symbol : single? c with
    | none =>
      rw [symbol] at same
      cases same
    | some l =>
      rw [symbol] at same
      exact (single?_ne_word c text (symbol.trans (congrArg some same))).elim

theorem Legible.feed {m : Mode} (h : m.Legible) (p : Position) (c : Char) :
    (m.feed p c).2.Legible ∧ ∀ t ∈ (m.feed p c).1, t.Legible := by
  -- what follows something that ends where it is begins anew
  have anew (m : Mode) (h : m.Legible) : (open' p c).2.Legible ∧
      ∀ t ∈ m.close p ++ (open' p c).1, t.Legible := by
    obtain ⟨mode, tokens⟩ := legible_open' p c
    refine ⟨mode, fun t ht ↦ ?_⟩
    rcases List.mem_append.1 ht with ht | ht
    · exact h.close p t ht
    · exact tokens t ht
  have symbol (start : Position) (l : Lexeme) (other : ∀ text, l ≠ .word text) :
      ∀ t ∈ [Token.mk l start (p.advance c)], t.Legible := by
    intro t ht text same
    obtain rfl := List.mem_singleton.1 ht
    exact (other text same).elim
  have nothing : ∀ t ∈ ([] : List Token), t.Legible := by simp
  cases m with
  | between => exact legible_open' p c
  | comment =>
    rw [Mode.feed]
    split <;> exact ⟨trivial, nothing⟩
  | word start letters =>
    rw [Mode.feed]
    split
    next letter =>
      refine ⟨⟨List.cons_ne_nil _ _, ?_⟩, nothing⟩
      exact List.forall_mem_cons.2 ⟨letter, h.2⟩
    next => exact anew _ h
  | colon start =>
    rw [Mode.feed]
    split
    · exact ⟨trivial, symbol _ _ (by simp)⟩
    · exact anew _ h
  | hyphen start =>
    rw [Mode.feed]
    split
    · exact ⟨trivial, symbol _ _ (by simp)⟩
    · exact anew _ h

end Mode

theorem scan_legible {m : Mode} (h : m.Legible) (p : Position) (cs : List Char) :
    ∀ t ∈ scan p m cs, t.Legible := by
  induction cs generalizing p m with
  | nil => exact h.close p
  | cons c cs ih =>
    obtain ⟨mode, tokens⟩ := h.feed p c
    intro t ht
    rcases List.mem_append.1 ht with ht | ht
    · exact tokens t ht
    · exact ih mode _ t ht

/-! ## What the reader holds -/

/-- An expression of names. -/
def Expr.Legible (x : Expr) : Prop := ∀ w ∈ x.words, IsName w.text

def Waiting.Legible (w : Waiting) : Prop := ∀ v ∈ w.words, IsName v.text

structure WaitingTy.Legible (w : WaitingTy) : Prop where
  domains : ∀ t ∈ w.domains, Readable t
  multiplied : ∀ t, w.multiplied = some t → Readable t

def Bracket.Legible : Bracket → Prop
  | .paren => True
  | .arguments name earlier => IsWord name ∧ ∀ t ∈ earlier, Readable t

def Goal.Legible : Goal → Prop
  | .root _ => True
  | .body _ name => IsName name.text

def Item.Legible : Item → Prop
  | .signature name ty _ => IsName name.text ∧ Readable ty
  | .functor name body _ => IsName name.text ∧ body.Legible
  | .expression body _ => body.Legible

def Phase.Legible : Phase → Prop
  | .item => True
  | .name _ word => IsName word.text
  | .keyword .. => True
  | .functorName _ _ word => IsName word.text
  | .operand goal outer here => goal.Legible ∧ (∀ w ∈ outer, w.Legible) ∧ here.Legible
  | .operator goal outer here x _ =>
    goal.Legible ∧ (∀ w ∈ outer, w.Legible) ∧ here.Legible ∧ x.Legible
  | .tyOperand word outer here _ =>
    IsName word.text ∧ (∀ f ∈ outer, f.1.Legible ∧ f.2.Legible) ∧ here.Legible
  | .tyOperator word outer here t bare =>
    IsName word.text ∧ (∀ f ∈ outer, f.1.Legible ∧ f.2.Legible) ∧ here.Legible ∧ Readable t ∧
      ∀ b, bare = some b → IsWord b.1

structure Reading.Legible (r : Reading) : Prop where
  items : ∀ i ∈ r.items, i.Legible
  phase : r.phase.Legible

namespace Waiting.Legible

variable {w : Waiting} {x : Expr}

theorem nothing : Waiting.nothing.Legible := nofun

theorem value (h : w.Legible) (hx : x.Legible) : (w.value x).Legible := by
  intro v hv
  rw [words_value] at hv
  exact (List.mem_append.1 hv).elim (h v) (hx v)

theorem times (h : w.Legible) (hx : x.Legible) : (w.times x).Legible := by
  intro v hv
  rw [words_times] at hv
  exact (List.mem_append.1 hv).elim (h v) (hx v)

theorem after (h : w.Legible) (hx : x.Legible) : (w.after x).Legible := by
  intro v hv
  rw [words_after] at hv
  exact (List.mem_append.1 hv).elim (h v) (hx v)

end Waiting.Legible

namespace WaitingTy.Legible

variable {w : WaitingTy} {t : Ty}

theorem nothing : WaitingTy.nothing.Legible := ⟨nofun, nofun⟩

theorem power (h : w.Legible) (ht : Readable t) : Readable (w.power t) := by
  unfold WaitingTy.power
  split
  · exact ht
  next l waits => exact .prod (h.multiplied l waits) ht

theorem value (h : w.Legible) (ht : Readable t) : Readable (w.value t) := by
  have readable := h.power ht
  unfold WaitingTy.value
  obtain ⟨domains, multiplied⟩ := w
  generalize WaitingTy.power ⟨domains, multiplied⟩ t = codomain at *
  have readableDomains : ∀ d ∈ domains, Readable d := h.domains
  clear h
  induction domains generalizing codomain with
  | nil => exact readable
  | cons d domains ih =>
    refine ih _ ?_ fun d' hd' ↦ readableDomains d' (List.mem_cons_of_mem _ hd')
    exact .fn (readableDomains d List.mem_cons_self) readable

theorem times (h : w.Legible) (ht : Readable t) : (w.times t).Legible := by
  refine ⟨h.domains, ?_⟩
  rintro l ⟨⟩
  exact h.power ht

theorem thenTo (h : w.Legible) (ht : Readable t) : (w.thenTo t).Legible :=
  ⟨List.forall_mem_cons.2 ⟨h.power ht, h.domains⟩, nofun⟩

end WaitingTy.Legible

theorem Goal.Legible.item {g : Goal} {here : Waiting} {x : Expr} (h : g.Legible)
    (hw : here.Legible) (hx : x.Legible) (stop next : Position) :
    (g.item here x stop next).Legible := by
  cases g with
  | root start => exact hw.value hx
  | body start name => exact ⟨h, hw.value hx⟩

theorem Begins.legible {e : Entry} {before : List Construct} {tok : Token} {phase : Phase}
    (legible : tok.Legible) (h : Begins e before tok phase) : phase.Legible := by
  cases h with
  | keyword => trivial
  | paren =>
    refine ⟨trivial, fun w hw ↦ ?_, .nothing⟩
    obtain rfl := List.mem_singleton.1 hw
    exact .nothing
  | name _ lexeme ne_functor ne_o => exact ⟨legible _ lexeme, ne_functor, ne_o⟩

theorem Expr.Legible.name {word : Word} (h : IsName word.text) : (Expr.name word).Legible := by
  intro w hw
  obtain rfl := List.mem_singleton.1 hw
  exact h

/-- A token of a text keeps a reading legible. -/
theorem Moves.legible {e : Entry} {tok : Token} {items : List Item} {phase : Phase} {r : Reading}
    (legible : tok.Legible) (read : ∀ i ∈ items, i.Legible) (held : phase.Legible)
    (h : Moves e tok items phase r) : r.Legible := by
  induction h with
  | begin begins => exact ⟨read, begins.legible legible⟩
  | signature => exact ⟨read, held, nofun, .nothing⟩
  | functor => exact ⟨read, held, nofun, .nothing⟩
  | name _ _ ih => exact ih ⟨trivial, nofun, .nothing, .name held⟩
  | keyword lexeme ne_functor ne_o => exact ⟨read, legible _ lexeme, ne_functor, ne_o⟩
  | functorName => exact ⟨read, held, nofun, .nothing⟩
  | word lexeme ne_functor ne_o =>
    obtain ⟨hgoal, houter, hhere⟩ := held
    exact ⟨read, hgoal, houter, hhere, .name ⟨legible _ lexeme, ne_functor, ne_o⟩⟩
  | paren =>
    obtain ⟨hgoal, houter, hhere⟩ := held
    exact ⟨read, hgoal, List.forall_mem_cons.2 ⟨hhere, houter⟩, .nothing⟩
  | times =>
    obtain ⟨hgoal, houter, hhere, hx⟩ := held
    exact ⟨read, hgoal, houter, hhere.times hx⟩
  | after =>
    obtain ⟨hgoal, houter, hhere, hx⟩ := held
    exact ⟨read, hgoal, houter, hhere.after hx⟩
  | close =>
    obtain ⟨hgoal, houter, hhere, hx⟩ := held
    obtain ⟨hup, hrest⟩ := List.forall_mem_cons.1 houter
    exact ⟨read, hgoal, hrest, hup, hhere.value hx⟩
  | complete begins =>
    obtain ⟨hgoal, -, hhere, hx⟩ := held
    exact ⟨List.forall_mem_cons.2 ⟨hgoal.item hhere hx _ _, read⟩, begins.legible legible⟩
  | tyWord lexeme =>
    obtain ⟨hname, houter, hhere⟩ := held
    have isWord := legible _ lexeme
    refine ⟨read, hname, houter, hhere, .word isWord, ?_⟩
    rintro b ⟨⟩
    exact isWord
  | tyParen =>
    obtain ⟨hname, houter, hhere⟩ := held
    exact ⟨read, hname, List.forall_mem_cons.2 ⟨⟨hhere, trivial⟩, houter⟩, .nothing⟩
  | tyUnit =>
    obtain ⟨hname, houter, -⟩ := held
    obtain ⟨⟨hup, -⟩, hrest⟩ := List.forall_mem_cons.1 houter
    exact ⟨read, hname, hrest, hup, .unit, nofun⟩
  | tyTimes =>
    obtain ⟨hname, houter, hhere, ht, -⟩ := held
    exact ⟨read, hname, houter, hhere.times ht⟩
  | tyArrow =>
    obtain ⟨hname, houter, hhere, ht, -⟩ := held
    exact ⟨read, hname, houter, hhere.thenTo ht⟩
  | tyClose =>
    obtain ⟨hname, houter, hhere, ht, -⟩ := held
    obtain ⟨⟨hup, -⟩, hrest⟩ := List.forall_mem_cons.1 houter
    exact ⟨read, hname, hrest, hup, hhere.value ht, nofun⟩
  | tyBracket =>
    obtain ⟨hname, houter, hhere, -, hbare⟩ := held
    have bracket := hbare _ rfl
    exact ⟨read, hname, List.forall_mem_cons.2 ⟨⟨hhere, bracket, nofun⟩, houter⟩, .nothing⟩
  | tyComma =>
    obtain ⟨hname, houter, hhere, ht, -⟩ := held
    obtain ⟨⟨hup, hf, hts⟩, hrest⟩ := List.forall_mem_cons.1 houter
    have earlier := List.forall_mem_cons.2 ⟨hhere.value ht, hts⟩
    exact ⟨read, hname, List.forall_mem_cons.2 ⟨⟨hup, hf, earlier⟩, hrest⟩, .nothing⟩
  | tyArguments =>
    obtain ⟨hname, houter, hhere, ht, -⟩ := held
    obtain ⟨⟨hup, hf, hts⟩, hrest⟩ := List.forall_mem_cons.1 houter
    refine ⟨read, hname, hrest, hup, .arguments hf (by simp) fun t ht' ↦ ?_, nofun⟩
    exact List.forall_mem_cons.2 ⟨hhere.value ht, hts⟩ t (List.mem_reverse.1 ht')
  | tyComplete begins =>
    obtain ⟨hname, -, hhere, ht, -⟩ := held
    exact ⟨List.forall_mem_cons.2 ⟨⟨hname, hhere.value ht⟩, read⟩, begins.legible legible⟩

theorem Finishes.legible {p : Position} {phase : Phase} {last : List Item} (held : phase.Legible)
    (h : Finishes p phase last) : ∀ i ∈ last, i.Legible := by
  cases h with
  | item => nofun
  | name =>
    intro i hi
    obtain rfl := List.mem_singleton.1 hi
    exact Goal.Legible.item (g := .root _) trivial .nothing (.name held) _ _
  | expression =>
    obtain ⟨hgoal, -, hhere, hx⟩ := held
    intro i hi
    obtain rfl := List.mem_singleton.1 hi
    exact hgoal.item hhere hx _ _
  | signature =>
    obtain ⟨hname, -, hhere, ht, -⟩ := held
    intro i hi
    obtain rfl := List.mem_singleton.1 hi
    exact ⟨hname, hhere.value ht⟩

/-- Every item of a text is legible. -/
theorem read_legible {e : Entry} {text : String} {items : List Item}
    (h : read e text = .ok items) : ∀ i ∈ items, i.Legible := by
  have tokens : ∀ t ∈ (tokenize text).list, t.Legible := scan_legible (m := .between) trivial _ _
  obtain ⟨r, last, ⟨held, -⟩, finishes, rfl⟩ := read_spec h
    (P := fun r tokens ↦ r.Legible ∧ ∀ t ∈ tokens, t.Legible)
    (fun p ↦ by
      refine ⟨?_, tokens⟩
      cases e with
      | program | signatures => exact ⟨nofun, trivial⟩
      | expression => exact ⟨nofun, trivial, nofun, .nothing⟩)
    fun held moves ↦ by
      obtain ⟨held, legible⟩ := held
      obtain ⟨first, rest⟩ := List.forall_mem_cons.1 legible
      exact ⟨moves.legible first held.items held.phase, rest⟩
  intro i hi
  rcases List.mem_append.1 hi with hi | hi
  · exact held.items i (List.mem_reverse.1 hi)
  · exact finishes.legible held.phase i hi

end Taskflow.Grammar
