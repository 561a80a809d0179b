import Taskflow.Proofs.Grammar.Building
import Taskflow.Proofs.Grammar.Numbering
import Taskflow.Proofs.Grammar.Positions

/-!
# Spans of nodes

The span of a literal is the one of its token, an operation is put together from the spans of its
operands, and the span of a declaration reaches from its first token to the end of its body or to
the token behind it.  So every span of a parsed program is accurate: it lies in the text, its lines
and columns are those of its offsets, and it covers what the node is written with
(`Program.located_of_parse`).

For expressions this follows from the order of the words in the text.  For declarations the reader
carries where the declaration began and where its last operand ended (`Phase.Within`).
-/

namespace Taskflow

namespace Grammar

/-! ## Declarations -/

/-- Whether the declaration that an item makes begins in front of its body and does not end within
it. -/
def Item.Covering (text : String) : Item → Prop
  | .functor _ body span => span.start.In text ∧ span.stop.In text ∧
    ∀ w ∈ body.words, span.start.offset < w.span.start.offset ∧
      w.span.stop.offset ≤ span.stop.offset
  | _ => True

/-- Whether the declaration whose body is in progress begins in front of the words of the body, and
of everything from `q` on. -/
def Goal.Leads (text : String) (q : Nat) (ws : List Word) : Goal → Prop
  | .root _ => True
  | .body start _ => start.In text ∧ start.offset < q ∧
    ∀ w ∈ ws, start.offset < w.span.start.offset

/-- What is known of the places that the reader holds if the last token ends at `q`. -/
def Phase.Within (text : String) (q : Nat) : Phase → Prop
  | .name _ word => word.span.start.In text ∧ word.span.stop.In text ∧
    word.span.start.offset < q ∧ word.span.stop.offset ≤ q
  | .keyword _ start | .functorName _ start _ => start.In text ∧ start.offset < q
  | .operand goal outer here =>
    goal.Leads text q (Phase.operand goal outer here).words ∧
      ∀ w ∈ (Phase.operand goal outer here).words, w.span.stop.offset ≤ q
  | .operator goal outer here x stop =>
    goal.Leads text q (Phase.operator goal outer here x stop).words ∧ stop.In text ∧
      stop.offset ≤ q ∧
        ∀ w ∈ (Phase.operator goal outer here x stop).words, w.span.stop.offset ≤ stop.offset
  | _ => True

section

variable {text : String} {q : Nat} {goal : Goal} {here : Waiting} {x : Expr} {stop next : Position}

theorem Goal.Leads.mono {q' : Nat} {ws : List Word} (h : goal.Leads text q ws) (le : q ≤ q') :
    goal.Leads text q' ws := by
  cases goal with
  | root => trivial
  | body start name => exact ⟨h.1, Nat.lt_of_lt_of_le h.2.1 le, h.2.2⟩

/-- A word behind everything so far. -/
theorem Goal.Leads.concat {ws : List Word} {w : Word} (h : goal.Leads text q ws)
    (behind : q ≤ w.span.start.offset) : goal.Leads text q (ws ++ [w]) := by
  cases goal with
  | root => trivial
  | body start name =>
    obtain ⟨inside, before, first⟩ := h
    refine ⟨inside, before, fun w' hw' ↦ ?_⟩
    rcases List.mem_append.1 hw' with hw' | hw'
    · exact first w' hw'
    · obtain rfl := List.mem_singleton.1 hw'
      exact Nat.lt_of_lt_of_le before behind

/-- An operand may come next behind the words so far. -/
theorem Phase.within_operand {q' : Nat} {outer : List Waiting} {ws : List Word}
    (leads : goal.Leads text q ws) (words : ∀ w ∈ ws, w.span.stop.offset ≤ q)
    (held : (Phase.operand goal outer here).words = ws) (le : q ≤ q') :
    (Phase.operand goal outer here).Within text q' := by
  subst held
  exact ⟨leads.mono le, fun w hw ↦ Nat.le_trans (words w hw) le⟩

/-- An expression that is complete makes an item that covers it, wherever the next token begins. -/
theorem Goal.covering_item (within : (Phase.operator goal [] here x stop).Within text q)
    (inside : next.In text) (behind : q ≤ next.offset) :
    (goal.item here x stop next).Covering text := by
  obtain ⟨leads, stopIn, le, words⟩ := within
  cases goal with
  | root => trivial
  | body start name =>
    have held : (Phase.operator (.body start name) [] here x stop).words =
        (here.value x).words := by
      simp [Phase.words]
    rw [held] at leads words
    unfold Goal.item
    refine ⟨leads.1, ?_, fun w hw ↦ ⟨leads.2.2 w hw, ?_⟩⟩
    · dsimp only
      split
      · exact stopIn
      · exact inside
    · have last := words w hw
      dsimp only
      split
      · exact last
      · omega

variable {e : Entry} {tok : Token} {items : List Item} {phase : Phase} {r : Reading}

theorem Begins.within {before : List Construct} (standing : tok.Standing text.toList)
    (pos : tok.start.offset < tok.stop.offset) (h : Begins e before tok phase) :
    phase.Within text tok.stop.offset := by
  cases h with
  | keyword => exact ⟨standing.start_in, pos⟩
  | paren => exact ⟨trivial, nofun⟩
  | name => exact ⟨standing.start_in, standing.stop_in, pos, Nat.le_refl _⟩

/-- What is known of the places that the reader holds is known with the next token, and of the item
that the token completes. -/
theorem Moves.within (standing : tok.Standing text.toList) (behind : q ≤ tok.start.offset)
    (pos : tok.start.offset < tok.stop.offset) (covering : ∀ i ∈ items, i.Covering text)
    (within : phase.Within text q) (h : Moves e tok items phase r) :
    r.phase.Within text tok.stop.offset ∧ ∀ i ∈ r.items, i.Covering text := by
  have later : q ≤ tok.stop.offset := by omega
  induction h with
  | begin begins => exact ⟨begins.within standing pos, covering⟩
  | signature => exact ⟨trivial, covering⟩
  | functor =>
    obtain ⟨inside, -, before, -⟩ := within
    exact ⟨⟨⟨inside, by omega, List.forall_mem_nil _⟩, List.forall_mem_nil _⟩, covering⟩
  | @name before word _ _ _ ih =>
    obtain ⟨startIn, stopIn, -, le⟩ := within
    refine ih ⟨trivial, stopIn, le, ?_⟩
    simp [Phase.words, Expr.words]
  | keyword => exact ⟨⟨within.1, by have := within.2; omega⟩, covering⟩
  | functorName =>
    obtain ⟨inside, before⟩ := within
    exact ⟨⟨⟨inside, by omega, List.forall_mem_nil _⟩, List.forall_mem_nil _⟩, covering⟩
  | @word goal outer here text' =>
    obtain ⟨leads, words⟩ := within
    have held (stop : Position) : (Phase.operator goal outer here (.name ⟨text', tok.span⟩)
        stop).words = (Phase.operand goal outer here).words ++ [⟨text', tok.span⟩] := by
      simp [Phase.words, Expr.words]
    refine ⟨⟨?_, standing.stop_in, Nat.le_refl _, ?_⟩, covering⟩
    · rw [held]
      exact (leads.concat behind).mono later
    · rw [held]
      intro w hw
      rcases List.mem_append.1 hw with hw | hw
      · exact Nat.le_trans (words w hw) later
      · obtain rfl := List.mem_singleton.1 hw
        exact Nat.le_refl _
  | paren =>
    exact ⟨Phase.within_operand within.1 within.2 (by simp [Phase.words]) later, covering⟩
  | times | after =>
    obtain ⟨leads, -, le, words⟩ := within
    have words := fun w hw ↦ Nat.le_trans (words w hw) le
    exact ⟨Phase.within_operand leads words (by simp [Phase.words]) later, covering⟩
  | @close goal up rest here x stop =>
    obtain ⟨leads, -, le, words⟩ := within
    have held : (Phase.operator goal rest up (here.value x) tok.stop).words =
        (Phase.operator goal (up :: rest) here x stop).words := by simp [Phase.words]
    refine ⟨⟨?_, standing.stop_in, Nat.le_refl _, ?_⟩, covering⟩
    · rw [held]
      exact leads.mono later
    · rw [held]
      exact fun w hw ↦ Nat.le_trans (words w hw) (Nat.le_trans le later)
  | complete begins =>
    refine ⟨begins.within standing pos, List.forall_mem_cons.2 ⟨?_, covering⟩⟩
    exact Goal.covering_item within standing.start_in behind
  | tyComplete begins =>
    exact ⟨begins.within standing pos, List.forall_mem_cons.2 ⟨trivial, covering⟩⟩
  | _ => exact ⟨trivial, covering⟩

/-- The end of the text completes an item that covers its body, if it completes one. -/
theorem Finishes.covering {p : Position} {last : List Item} (inside : p.In text)
    (behind : q ≤ p.offset) (within : phase.Within text q) (h : Finishes p phase last) :
    ∀ i ∈ last, i.Covering text := by
  cases h with
  | item => nofun
  | name | signature => exact List.forall_mem_singleton.2 trivial
  | expression => exact List.forall_mem_singleton.2 (Goal.covering_item within inside behind)

end

/-- Every declaration of a text covers its body. -/
theorem read_covering {e : Entry} {text : String} {items : List Item}
    (h : read e text = .ok items) : ∀ i ∈ items, i.Covering text := by
  obtain ⟨r, last, ⟨q, le, covering, within, -⟩, finishes, rfl⟩ := read_spec h
    (P := fun r tokens ↦ ∃ q, q ≤ (tokenize text).stop.offset ∧
      (∀ i ∈ r.items, i.Covering text) ∧ r.phase.Within text q ∧
        InOrder q tokens ∧ ∀ t ∈ tokens, t.Standing text.toList)
    (fun p ↦ ⟨0, Nat.zero_le _, nofun, by cases e <;> simp [Entry.start, Phase.Within, Goal.Leads,
      Phase.words], tokenize_inOrder text, tokenize_standing text⟩)
    fun {r tok tokens r'} held moves ↦ by
      obtain ⟨q, -, covering, within, ⟨behind, pos, ordered⟩, standing⟩ := held
      obtain ⟨here, standing⟩ := List.forall_mem_cons.1 standing
      obtain ⟨within', covering'⟩ := moves.within here behind pos covering within
      exact ⟨_, here.stop_in.offset_le, covering', within', ordered, standing⟩
  intro i hi
  rcases List.mem_append.1 hi with hi | hi
  · exact covering i (List.mem_reverse.1 hi)
  · exact finishes.covering (Position.in_stop text) le within i hi

/-! ## Expressions -/

/-- Whether a word stands where it says it does. -/
structure Word.Standing (text : String) (w : Word) : Prop where
  start : w.span.start.In text
  stop : w.span.stop.In text
  covers : w.span.Covers text w.text

/-- The words in the expressions of a text stand where they say they do. -/
theorem read_words_standing {e : Entry} {text : String} {items : List Item}
    (h : read e text = .ok items) : ∀ w ∈ items.flatMap Item.words, w.Standing text := by
  intro w hw
  obtain ⟨tok, mem, isWord⟩ := List.mem_flatMap.1 ((read_words_sublist h).subset hw)
  have standing := tokenize_standing text tok mem
  rw [Token.words] at isWord
  split at isWord
  next name lexeme =>
    obtain rfl := List.mem_singleton.1 isWord
    exact ⟨standing.start_in, standing.stop_in, standing.covers lexeme⟩
  next => cases isWord

end Grammar

/-! ## Nodes -/

open Grammar

/-- Whether the span of a node fits its name, its operands or its body. -/
def Node.SpanFits (text : String) : Node → Prop
  | .literal _ name span => span.Covers text name
  | .composition _ first second span | .product _ first second span =>
    span.start = first.span.start ∧ span.stop = second.span.stop ∧
      first.span.stop.offset ≤ second.span.start.offset
  | .functor _ _ body span =>
    span.start.offset ≤ body.span.start.offset ∧ body.span.stop.offset ≤ span.stop.offset

/-- Whether the span of a node is where the node stands in a text. -/
structure Node.Located (text : String) (n : Node) : Prop where
  start : n.span.start.Accurate text
  stop : n.span.stop.Accurate text
  pos : n.span.start.offset < n.span.stop.offset
  le : n.span.stop.offset ≤ text.utf8ByteSize
  fits : n.SpanFits text

/-- The literals of a node, in the order in which they are written, with their spans. -/
def Node.literals : Node → List (String × Span)
  | .literal _ name span => [(name, span)]
  | .composition _ outer inner _ => outer.literals ++ inner.literals
  | .product _ left right _ => left.literals ++ right.literals
  | .functor _ _ body _ => body.literals

theorem Node.map_fst_literals (n : Node) : n.literals.map (·.1) = n.references := by
  induction n <;> simp_all [literals, references]

/-- Spans that follow each other are merged end to end. -/
theorem Span.merge_eq {a b : Span} (pos : a.start.offset < a.stop.offset)
    (between : a.stop.offset ≤ b.start.offset) (pos' : b.start.offset < b.stop.offset) :
    a.merge b = ⟨a.start, b.stop⟩ := by
  rw [merge, if_pos (by omega), if_neg (by omega)]

namespace Grammar.Expr

variable {text : String}

theorem literals_number (e : Expr) (n : NodeId) :
    (e.number n).1.literals = e.words.map fun w ↦ (w.text, w.span) := by
  induction e generalizing n with
  | name => rfl
  | compose left right ihLeft ihRight | product left right ihLeft ihRight =>
    simp [number, Node.literals, words, ihLeft, ihRight]

/-- A node among words that stand in a text is located if its span fits. -/
theorem located_of_among {ws : List Word} (standing : ∀ w ∈ ws, w.Standing text) {m : Node}
    (among : m.Among ws) (fits : m.SpanFits text) : m.Located text := by
  obtain ⟨⟨w, hw, start⟩, ⟨w', hw', stop⟩, pos⟩ := among
  have stops : m.span.stop.Accurate text := stop ▸ (standing w' hw').stop.accurate
  exact ⟨start ▸ (standing w hw).start.accurate, stops, pos, stops.le, fits⟩

/-- Every node of an expression whose words stand in a text, one behind the other, is located. -/
theorem located_number {e : Expr} (placed : Placed e.words)
    (standing : ∀ w ∈ e.words, w.Standing text) (n : NodeId) :
    ∀ m ∈ (e.number n).1.all, m.Located text := by
  intro m hm
  refine located_of_among standing (among_number placed n m hm) ?_
  induction e generalizing n with
  | name w =>
    obtain rfl := List.mem_singleton.1 hm
    exact (standing w (List.mem_singleton.2 rfl)).covers
  | compose left right ihLeft ihRight | product left right ihLeft ihRight =>
    have first : Placed left.words := placed.sublist (List.sublist_append_left ..)
    have second : Placed right.words := placed.sublist (List.sublist_append_right ..)
    simp only [number, Node.all, List.mem_append, List.mem_singleton] at hm
    rcases hm with (hm | hm) | rfl
    · exact ihLeft first (fun w hw ↦ standing w (List.mem_append_left _ hw)) n hm
    · exact ihRight second (fun w hw ↦ standing w (List.mem_append_right _ hw)) _ hm
    · have outer := among_number first n _ (Node.mem_all_self _)
      have inner := among_number second (left.number n).2 _ (Node.mem_all_self _)
      have between := Node.Among.stop_le_start placed outer inner
      have merged := Span.merge_eq outer.pos between inner.pos
      rw [span_number, span_number] at merged between
      simp only [Node.SpanFits, span_number, merged, true_and]
      exact between

/-- The literals of an expression follow each other. -/
theorem pairwise_literals_number {e : Expr} (placed : Placed e.words) (n : NodeId) :
    (e.number n).1.literals.Pairwise fun a b ↦ a.2.start.offset < b.2.start.offset := by
  rw [literals_number, List.pairwise_map]
  refine placed.ordered.imp_of_mem fun {w w'} hw _ between ↦ ?_
  exact Nat.lt_of_lt_of_le (placed.pos w hw) between

end Grammar.Expr

/-! ## Programs -/

/-- Whether all nodes of a tree are located, its literals follow each other in the text, and no two
of its nodes take up the same stretch. -/
structure Node.WellPlaced (text : String) (tree : Node) : Prop where
  located : ∀ n ∈ tree.all, n.Located text
  literals : tree.literals.Pairwise fun a b ↦ a.2.start.offset < b.2.start.offset
  extents : (tree.all.map Node.extent).Nodup

theorem Grammar.Expr.wellPlaced_number {text : String} {e : Expr} (placed : Placed e.words)
    (standing : ∀ w ∈ e.words, w.Standing text) (n : NodeId) :
    (e.number n).1.WellPlaced text :=
  ⟨located_number placed standing n, pairwise_literals_number placed n,
    nodup_extents_number placed n⟩

/-- A declaration begins in front of everything in its body. -/
theorem Grammar.Expr.wellPlaced_functor {text : String} {name : Word} {e : Expr} {span : Span}
    (placed : Placed e.words) (standing : ∀ w ∈ e.words, w.Standing text)
    (covering : (Item.functor name e span).Covering text) (id n : NodeId) :
    (Node.functor id name.text (e.number n).1 span).WellPlaced text := by
  obtain ⟨startIn, stopIn, words⟩ := covering
  have body := e.wellPlaced_number placed standing n
  have inside : ∀ m ∈ (e.number n).1.all, span.start.offset < m.span.start.offset ∧
      m.span.stop.offset ≤ span.stop.offset := by
    intro m hm
    obtain ⟨⟨w, hw, start⟩, ⟨w', hw', stop⟩, -⟩ := among_number placed n m hm
    rw [start, stop]
    exact ⟨(words w hw).1, (words w' hw').2⟩
  obtain ⟨before, behind⟩ := inside _ (Node.mem_all_self _)
  have pos := (body.located _ (Node.mem_all_self _)).pos
  refine ⟨fun m hm ↦ ?_, body.literals, ?_⟩
  · rcases List.mem_append.1 hm with hm | hm
    · exact body.located m hm
    · obtain rfl := List.mem_singleton.1 hm
      have around : span.start.offset < span.stop.offset := by omega
      exact ⟨startIn.accurate, stopIn.accurate, around, stopIn.accurate.le,
        Nat.le_of_lt before, behind⟩
  · rw [Node.all, List.map_append, List.map_singleton]
    refine body.extents.append (List.nodup_singleton _) fun x hx hx' ↦ ?_
    obtain ⟨m, hm, rfl⟩ := List.mem_map.1 hx
    have same := congrArg Prod.fst (List.mem_singleton.1 hx')
    have first := (inside m hm).1
    exact Nat.ne_of_gt first same

namespace Program

/-- The declarations of a program and its root. -/
def trees (p : Program) : List Node := p.functors.map (·.2) ++ [p.root]

theorem exists_tree_of_mem_nodes {p : Program} {n : Node} (h : n ∈ p.nodes) :
    ∃ tree ∈ p.trees, n ∈ tree.all := by
  rcases List.mem_append.1 h with h | h
  · obtain ⟨f, hf, mem⟩ := List.mem_flatMap.1 h
    exact ⟨f.2, List.mem_append_left _ (List.mem_map_of_mem hf), mem⟩
  · exact ⟨p.root, List.mem_append_right _ (List.mem_singleton.2 rfl), h⟩

theorem wellPlaced_of_parse {text : String} {p : Program} (h : Program.parse text = .ok p) :
    ∀ tree ∈ p.trees, tree.WellPlaced text := by
  obtain ⟨items, reads, builds⟩ := Except.bind_eq_ok_iff.1 h
  have reads := Except.mapError_eq_ok_iff.1 reads
  have lists := Lists.of_build (Except.mapError_eq_ok_iff.1 builds)
  -- what the text says about its words holds of those of an item
  have placed (i : Item) (hi : i ∈ items) : Placed i.words :=
    (read_words_placed reads).sublist (List.sublist_flatten_of_mem (List.mem_map_of_mem hi))
  have standing (i : Item) (hi : i ∈ items) : ∀ w ∈ i.words, w.Standing text :=
    fun w hw ↦ read_words_standing reads w (List.mem_flatMap.2 ⟨i, hi, hw⟩)
  intro tree mem
  rcases List.mem_append.1 mem with mem | mem
  · obtain ⟨f, hf, rfl⟩ := List.mem_map.1 mem
    rw [lists.functors] at hf
    obtain ⟨⟨n, i⟩, hi, made⟩ := List.mem_filterMap.1 hf
    have hi := mem_of_mem_numbered hi
    cases i with
    | functor name body span =>
      cases made
      exact body.wellPlaced_functor (placed _ hi) (standing _ hi) (read_covering reads _ hi) _ n
    | signature | expression => cases made
  · have root : tree ∈ [p.root] := mem
    rw [lists.root] at root
    obtain ⟨⟨n, i⟩, hi, made⟩ := List.mem_filterMap.1 root
    have hi := mem_of_mem_numbered hi
    cases i with
    | expression body span =>
      cases made
      exact body.wellPlaced_number (placed _ hi) (standing _ hi) n
    | signature | functor => cases made

/-- Every node of a parsed program is where its span says it is.  In each tree the references are in
the order of the text, and no two nodes take up the same stretch of it. -/
theorem located_of_parse {text : String} {p : Program} (h : Program.parse text = .ok p) :
    (∀ n ∈ p.nodes, n.Located text) ∧
      ∀ tree ∈ p.trees, tree.references = tree.literals.map (·.1) ∧
        (tree.literals.Pairwise fun a b ↦ a.2.start.offset < b.2.start.offset) ∧
        (tree.all.map Node.extent).Nodup := by
  constructor
  · intro n hn
    obtain ⟨tree, mem, below⟩ := exists_tree_of_mem_nodes hn
    exact (wellPlaced_of_parse h tree mem).located n below
  · intro tree mem
    have wellPlaced := wellPlaced_of_parse h tree mem
    exact ⟨tree.map_fst_literals.symm, wellPlaced.literals, wellPlaced.extents⟩

/-- A declaration that ends in a comment, parentheses around an operand, and lines that end in a
carriage return and a line feed. -/
theorem located_of_parse_of_layout :
    let text := "functor f = (a × b) # é\r\n(f) ∘ c\r"
    ∃ p, Program.parse text = .ok p ∧ p.root.span = ⟨⟨28, 1, 1⟩, ⟨36, 1, 7⟩⟩ ∧
      p.root.Located text ∧ p.root.references = p.root.literals.map (·.1) := by
  intro text
  obtain ⟨p, parsed, span⟩ : ∃ p, Program.parse text = .ok p ∧
      p.root.span = ⟨⟨28, 1, 1⟩, ⟨36, 1, 7⟩⟩ :=
    ⟨_, Except.eq_ok_get (by decide), by decide +kernel⟩
  obtain ⟨located, ordered⟩ := located_of_parse parsed
  have root : p.root ∈ p.nodes := List.mem_append_right _ (Node.mem_all_self _)
  have tree : p.root ∈ p.trees := List.mem_append_right _ (List.mem_singleton.2 rfl)
  exact ⟨p, parsed, span, located _ root, (ordered _ tree).1⟩

end Program

end Taskflow
