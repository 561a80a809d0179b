import Taskflow.Proofs.Grammar.RoundTrip

/-!
# Ids

The nodes of a program are numbered in one go.  Every item but a signature makes one tree
(`Item.tree?`), the counter moves on by the size of the tree, and a tree goes to the end of the
functor table or becomes the root.  So the trees of a program, with the root put back where it stood
between the functors, are the trees of its items in the order of the text (`Draft.Trees`), and their
nodes, read one after the other, have the ids 0, 1, 2 and so on.
-/

namespace Taskflow

namespace Node

/-- Whether every expression in `m` ends before any expression in `n` begins. -/
def Precedes (m n : Node) : Prop :=
  ∀ a ∈ m.all, ∀ b ∈ n.all, a.IsExpr → b.IsExpr → a.span.stop.offset ≤ b.span.start.offset

/-- A node is the last of its own. -/
theorem exists_all_eq_append (n : Node) : ∃ below, n.all = below ++ [n] := by
  cases n with
  | literal => exact ⟨[], rfl⟩
  | _ => exact ⟨_, rfl⟩

/-- What is below something below a node follows each other in that node. -/
theorem all_sublist_of_mem {m n : Node} (h : m ∈ n.all) : m.all.Sublist n.all := by
  refine of_mem_all (P := fun m ↦ m.all.Sublist n.all) ?_ ?_ ?_ (.refl _) h
  · intro i outer inner s h
    rw [all, List.append_assoc] at h
    exact ⟨(List.sublist_append_left ..).trans h,
      ((List.sublist_append_left ..).trans (List.sublist_append_right ..)).trans h⟩
  · intro i left right s h
    rw [all, List.append_assoc] at h
    exact ⟨(List.sublist_append_left ..).trans h,
      ((List.sublist_append_left ..).trans (List.sublist_append_right ..)).trans h⟩
  · intro i name body s h
    exact (List.sublist_append_left ..).trans h

/-- Where ids increase, nothing below a node has the id of the node or a larger one. -/
theorem id_lt_of_mem_all {m n tree : Node} (increasing : (tree.all.map id).Pairwise (· < ·))
    (hn : n ∈ tree.all) (hm : m ∈ n.all) (differ : m ≠ n) : m.id < n.id := by
  have sorted := increasing.sublist ((all_sublist_of_mem hn).map id)
  obtain ⟨below, shape⟩ := n.exists_all_eq_append
  rw [shape, List.map_append, List.map_singleton] at sorted
  have under : m ∈ below := by
    rw [shape, List.mem_append, List.mem_singleton] at hm
    exact hm.resolve_right differ
  exact (List.pairwise_append.1 sorted).2.2 _ (List.mem_map_of_mem under) _
    (List.mem_singleton.2 rfl)

end Node

namespace Grammar

/-! ## The trees of items -/

/-- The tree that an item makes if its first node gets the id `n`. -/
def Item.tree? (n : NodeId) : Item → Option Node
  | .signature .. => none
  | .functor name body span => some (.functor (n + body.size) name.text (body.number n).1 span)
  | .expression body _ => some (body.number n).1

/-- How many nodes an item has. -/
def Item.size : Item → Nat
  | .signature .. => 0
  | .functor _ body _ => body.size + 1
  | .expression body _ => body.size

/-- The trees of items that are numbered from `n` on. -/
def treesFrom (n : NodeId) : List Item → List Node
  | [] => []
  | item :: rest => (item.tree? n).toList ++ treesFrom (n + item.size) rest

/-- The nodes of items are those of their trees. -/
theorem flatMap_all_treesFrom (n : NodeId) (items : List Item) :
    (treesFrom n items).flatMap Node.all = nodesFrom n items := by
  induction items generalizing n with
  | nil => rfl
  | cons item rest ih =>
    rw [treesFrom, List.flatMap_append, ih]
    cases item with
    | signature => rfl
    | functor name body span =>
      simp [Item.tree?, Item.size, nodesFrom, Node.all, Nat.add_assoc]
    | expression => simp [Item.tree?, Item.size, nodesFrom]

/-- The expressions in the tree of an item lie among the words of the item. -/
theorem among_tree {item : Item} {n : NodeId} {t : Node} (placed : Placed item.words)
    (h : item.tree? n = some t) : ∀ m ∈ t.all, m.IsExpr → m.Among item.words := by
  intro m mem expr
  cases item with
  | signature => cases h
  | functor name body span =>
    cases h
    rcases List.mem_append.1 mem with mem | mem
    · exact Expr.among_number placed n m mem
    · obtain rfl := List.mem_singleton.1 mem
      exact expr.elim
  | expression body span =>
    cases h
    exact Expr.among_number placed n m mem

/-- The trees of items follow each other in the text. -/
theorem treesFrom_placed {items : List Item} (placed : Placed (items.flatMap Item.words))
    (n : NodeId) :
    (∀ t ∈ treesFrom n items, ∀ m ∈ t.all, m.IsExpr → m.Among (items.flatMap Item.words)) ∧
      (treesFrom n items).Pairwise Node.Precedes := by
  induction items generalizing n with
  | nil => exact ⟨nofun, .nil⟩
  | cons item rest ih =>
    rw [List.flatMap_cons] at placed ⊢
    have first := placed.sublist (List.sublist_append_left item.words (rest.flatMap Item.words))
    have behind := placed.sublist (List.sublist_append_right item.words (rest.flatMap Item.words))
    obtain ⟨among, ordered⟩ := ih behind (n + item.size)
    cases made : item.tree? n with
    | none =>
      rw [treesFrom, made]
      exact ⟨fun t ht m hm expr ↦ (among t ht m hm expr).mono (List.subset_append_right ..),
        ordered⟩
    | some t =>
      rw [treesFrom, made, Option.toList_some, List.singleton_append]
      have here := among_tree first made
      refine ⟨List.forall_mem_cons.2 ⟨fun m hm expr ↦ ?_, fun u hu m hm expr ↦ ?_⟩,
        List.pairwise_cons.2 ⟨fun u hu a ha b hb exprA exprB ↦ ?_, ordered⟩⟩
      · exact (here m hm expr).mono (List.subset_append_left ..)
      · exact (among u hu m hm expr).mono (List.subset_append_right ..)
      · exact Node.Among.stop_le_start placed (here a ha exprA) (among u hu b hb exprB)

/-! ## The trees of a program in progress -/

/-- The trees of a program in progress, in the order in which they were made: those of the functor
table, in its order, and that of the root, if there is one yet, somewhere between them. -/
def Draft.Trees (d : Draft) (trees : List Node) : Prop :=
  ∃ before after, d.functors = before ++ after ∧
    trees = before.map (·.2) ++ d.root.toList ++ after.map (·.2) ∧ (d.root = none → after = [])

namespace Draft.Trees

variable {declared : Table Declaration} {k : Nat} {d d' : Draft} {trees : List Node}

/-- Adding an item adds its tree, if it has one, and moves the numbering on by its size. -/
theorem add {item : Item} (h : d.Trees trees) (added : d.add declared k item = .ok d') :
    d'.Trees (trees ++ (item.tree? d.next).toList) ∧ d'.next = d.next + item.size := by
  obtain ⟨before, after, functors, rfl, open'⟩ := h
  cases item with
  | signature name ty span =>
    obtain ⟨signatures, -, same⟩ := Except.bind_eq_ok_iff.1 added
    cases same
    exact ⟨⟨before, after, functors, List.append_nil _, open'⟩, rfl⟩
  | functor name body span =>
    obtain ⟨⟨⟩, -, same⟩ := Except.bind_eq_ok_iff.1 added
    cases same
    have moved : (body.number d.next).2 + 1 = d.next + (body.size + 1) := by
      rw [Expr.number_snd, Nat.add_assoc]
    refine ⟨?_, moved⟩
    let entry : String × Node :=
      (name.text, .functor (body.number d.next).2 name.text (body.number d.next).1 span)
    cases root : d.root with
    | none =>
      obtain rfl := open' root
      refine ⟨before ++ [entry], [], ?_, ?_, fun _ ↦ rfl⟩
      · rw [functors, List.append_nil, List.append_nil]
      · simp [entry, Item.tree?, Expr.number_snd]
    | some r =>
      refine ⟨before, after ++ [entry], ?_, ?_, nofun⟩
      · rw [functors, List.append_assoc]
      · simp [entry, Item.tree?, Expr.number_snd]
  | expression body span =>
    rw [Draft.add] at added
    split at added
    · cases added
    next none =>
      obtain ⟨⟨⟩, -, same⟩ := Except.bind_eq_ok_iff.1 added
      cases same
      obtain rfl := open' none
      refine ⟨⟨before, [], functors, ?_, fun _ ↦ rfl⟩, Expr.number_snd body d.next⟩
      simp [none, Item.tree?]

/-- Adding items adds their trees. -/
theorem addAll {items : List Item} (h : d.Trees trees)
    (added : d.addAll declared k items = .ok d') : d'.Trees (trees ++ treesFrom d.next items) := by
  induction items generalizing d k trees with
  | nil =>
    cases added
    rwa [treesFrom, List.append_nil]
  | cons item rest ih =>
    obtain ⟨middle, first, later⟩ := Except.bind_eq_ok_iff.1 added
    obtain ⟨trees', moved⟩ := h.add first
    have all := ih trees' later
    rwa [moved, List.append_assoc] at all

end Draft.Trees

/-- The trees of a program that items make are those of the items. -/
theorem exists_trees_of_build {items : List Item} {text : Span} {p : Program}
    (h : build items text = .ok p) :
    ∃ before after : Table Node, p.functors = before ++ after ∧
      before.map (·.2) ++ p.root :: after.map (·.2) = treesFrom 0 items := by
  obtain ⟨⟨⟩, -, h⟩ := Except.bind_eq_ok_iff.1 h
  obtain ⟨d, added, h⟩ := Except.bind_eq_ok_iff.1 h
  have blank : Draft.blank.Trees [] := ⟨[], [], rfl, rfl, fun _ ↦ rfl⟩
  obtain ⟨before, after, functors, trees, -⟩ := blank.addAll added
  split at h
  next root found =>
    cases h
    refine ⟨before, after, functors, ?_⟩
    rw [found, Option.toList_some, List.append_assoc, List.singleton_append] at trees
    exact trees.symm
  next => cases h

end Grammar

namespace Program

open Grammar

/-- The trees of a program, the root between the functors, have the nodes of the program. -/
theorem flatMap_all_perm_nodes {p : Program} {before after : Table Node}
    (functors : p.functors = before ++ after) :
    ((before.map (·.2) ++ p.root :: after.map (·.2)).flatMap Node.all).Perm p.nodes := by
  rw [nodes, functors, List.flatMap_append, List.flatMap_append, List.flatMap_cons,
    List.flatMap_map, List.flatMap_map, List.append_assoc]
  exact .append_left _ List.perm_append_comm

/-- The ids of a program that comes from a text.  The functors, in the order of their table and with
the root put between them at some place, stand one after the other in the text, and their nodes,
each behind what is below it, are numbered from 0 on without a gap.  So all ids differ, they are the
numbers below the number of nodes, and a node has a larger one than what is below it.  Declarations
stand in the functor table alone, and functors and signatures stand in their tables under their own
names. -/
theorem ids_of_parse {text : String} {p : Program} (parsed : Program.parse text = .ok p) :
    (∃ before after : Table Node, p.functors = before ++ after ∧
      let trees := before.map (·.2) ++ p.root :: after.map (·.2)
      trees.Pairwise Node.Precedes ∧
        (trees.flatMap Node.all).map Node.id = List.range p.nodes.length) ∧
    (p.nodes.map Node.id).Nodup ∧ (∀ i, i ∈ p.nodes.map Node.id ↔ i < p.nodes.length) ∧
    (∀ n ∈ p.nodes, ∀ m ∈ n.all, m ≠ n → m.id < n.id) ∧
    (∀ f ∈ p.functors, ∃ id body span, f.2 = .functor id f.1 body span ∧ body.IsExpr) ∧
    p.root.IsExpr ∧ ∀ s ∈ p.signatures, s.2.name = s.1 := by
  have wf := wellFormed_of_parse parsed
  obtain ⟨items, reads, builds⟩ := Except.bind_eq_ok_iff.1 parsed
  replace builds := Except.mapError_eq_ok_iff.1 builds
  have placed := read_words_placed (Except.mapError_eq_ok_iff.1 reads)
  obtain ⟨before, after, functors, trees⟩ := exists_trees_of_build builds
  have perm := flatMap_all_perm_nodes functors
  have ordered := (treesFrom_placed placed 0).2
  rw [← trees] at ordered
  have ids : ((before.map (·.2) ++ p.root :: after.map (·.2)).flatMap Node.all).map Node.id =
      List.range p.nodes.length := by
    rw [← perm.length_eq, trees, flatMap_all_treesFrom, map_id_nodesFrom, List.range_eq_range']
  refine ⟨⟨before, after, functors, ordered, ids⟩, wf.ids, fun i ↦ ?_, fun n hn m hm differ ↦ ?_,
    wf.entry, wf.root, fun s hs ↦ ((holds_of_build builds).1.signature_mem hs).1.symm⟩
  · rw [← (perm.map Node.id).mem_iff, ids, List.mem_range]
  · -- the ids of one tree are consecutive, as part of all ids
    obtain ⟨t, ht, mem⟩ := List.mem_flatMap.1 (perm.mem_iff.2 hn)
    have part := List.sublist_flatten_of_mem (List.mem_map_of_mem (f := Node.all) ht)
    have increasing := (List.pairwise_lt_range (n := p.nodes.length)).sublist
      (ids ▸ (part.map Node.id))
    exact Node.id_lt_of_mem_all increasing mem hm differ

/-- A root between two functors is numbered between them. -/
theorem ids_of_parse_of_root_between :
    ∃ p, Program.parse "f = a ∘ b\nf × c\ng = f" = .ok p ∧ (p.nodes.map Node.id).Nodup ∧
      p.nodes.map Node.id = [0, 1, 2, 3, 7, 8, 4, 5, 6] ∧
      ∀ i, i ∈ p.nodes.map Node.id ↔ i < 9 := by
  have parsed := Except.eq_ok_get
    (x := Program.parse "f = a ∘ b\nf × c\ng = f") (by decide +kernel)
  obtain ⟨-, nodup, all, -⟩ := ids_of_parse parsed
  exact ⟨_, parsed, nodup, by decide +kernel, all⟩

end Program

end Taskflow
