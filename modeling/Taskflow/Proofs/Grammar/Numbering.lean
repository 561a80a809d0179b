import Mathlib.Data.List.Nodup
import Taskflow.Proofs.Grammar.Order
import Taskflow.Proofs.Program.Structure

/-!
# Numbered expressions

Numbering an expression keeps its shape, its names and its span, and gives its nodes consecutive
ids, each node a larger one than what is below it.  Where the words of an expression follow each
other in the text, no two of its nodes have the same extent: an operation reaches strictly further
than either operand.
-/

namespace Taskflow

open Grammar

/-! ## Nodes among words -/

/-- A node begins where some word of `ws` begins and ends where one ends, after that. -/
structure Node.Among (ws : List Word) (n : Node) : Prop where
  start : ∃ w ∈ ws, n.span.start = w.span.start
  stop : ∃ w ∈ ws, n.span.stop = w.span.stop
  pos : n.span.start.offset < n.span.stop.offset

namespace Node.Among

variable {ws ws' : List Word} {m n : Node}

theorem mono (h : n.Among ws) (sub : ws ⊆ ws') : n.Among ws' where
  start := h.start.imp fun _ hw ↦ ⟨sub hw.1, hw.2⟩
  stop := h.stop.imp fun _ hw ↦ ⟨sub hw.1, hw.2⟩
  pos := h.pos

/-- A node among earlier words ends before a node among later words begins. -/
theorem stop_le_start (placed : Placed (ws ++ ws')) (hm : m.Among ws) (hn : n.Among ws') :
    m.span.stop.offset ≤ n.span.start.offset := by
  obtain ⟨w, hw, stop⟩ := hm.stop
  obtain ⟨w', hw', start⟩ := hn.start
  rw [stop, start]
  exact (List.pairwise_append.1 placed.ordered).2.2 w hw w' hw'

end Node.Among

/-- Nodes among earlier words and nodes among later words have different extents. -/
theorem nodup_extents_append {ws ws' : List Word} (placed : Placed (ws ++ ws'))
    {ms ns : List Node} (hm : ∀ m ∈ ms, m.Among ws) (hn : ∀ n ∈ ns, n.Among ws')
    (nodupM : (ms.map Node.extent).Nodup) (nodupN : (ns.map Node.extent).Nodup) :
    ((ms ++ ns).map Node.extent).Nodup := by
  rw [List.map_append]
  refine nodupM.append nodupN fun x hx hx' ↦ ?_
  obtain ⟨m, mem, rfl⟩ := List.mem_map.1 hx
  obtain ⟨n, mem', same⟩ := List.mem_map.1 hx'
  have first := (hm m mem).pos
  have between := Node.Among.stop_le_start placed (hm m mem) (hn n mem')
  rw [Node.extent, Node.extent, Prod.mk.injEq] at same
  omega

/-! ## Numbering -/

namespace Grammar.Expr

/-- How many nodes an expression has. -/
def size : Expr → Nat
  | .name _ => 1
  | .compose outer inner => outer.size + inner.size + 1
  | .product left right => left.size + right.size + 1

theorem number_snd (e : Expr) (n : NodeId) : (e.number n).2 = n + e.size := by
  induction e generalizing n with
  | name => rfl
  | compose left right ihLeft ihRight | product left right ihLeft ihRight =>
    simp only [number, size, ihLeft, ihRight, Nat.add_assoc]

/-- The ids of an expression are consecutive, in the order of `Node.all`. -/
theorem map_id_all_number (e : Expr) (n : NodeId) :
    (e.number n).1.all.map Node.id = List.range' n e.size := by
  induction e generalizing n with
  | name => rfl
  | compose left right ihLeft ihRight | product left right ihLeft ihRight =>
    simp only [number, Node.all, List.map_append, ihLeft, ihRight, number_snd, size]
    rw [List.range'_concat, List.range'_append_1]
    simp [Node.id, Nat.add_assoc]

theorem isExpr_number (e : Expr) (n : NodeId) : (e.number n).1.IsExpr := by
  induction e generalizing n with
  | name => trivial
  | compose left right ihLeft ihRight | product left right ihLeft ihRight =>
    exact ⟨ihLeft _, ihRight _⟩

theorem references_number (e : Expr) (n : NodeId) :
    (e.number n).1.references = e.words.map (·.text) := by
  induction e generalizing n with
  | name => rfl
  | compose left right ihLeft ihRight | product left right ihLeft ihRight =>
    simp [number, Node.references, words, ihLeft, ihRight]

theorem span_number (e : Expr) (n : NodeId) : (e.number n).1.span = e.span := by
  cases e <;> rfl

/-- Where a merged span begins and ends, one of its parts does. -/
theorem among_merge {ws ws' : List Word} {a b n : Node} (ha : a.Among ws) (hb : b.Among ws')
    (h : n.span = a.span.merge b.span) : n.Among (ws ++ ws') := by
  have left := ha.mono (List.subset_append_left ws ws')
  have right := hb.mono (List.subset_append_right ws ws')
  refine ⟨?_, ?_, ?_⟩
  · rw [h, Span.merge]
    dsimp only
    split
    · exact left.start
    · exact right.start
  · rw [h, Span.merge]
    dsimp only
    split
    · exact left.stop
    · exact right.stop
  · have := ha.pos
    rw [h, Span.offset_start_merge, Span.offset_stop_merge]
    omega

/-- Every node of an expression lies among its words. -/
theorem among_number {e : Expr} (placed : Placed e.words) (n : NodeId) :
    ∀ m ∈ (e.number n).1.all, m.Among e.words := by
  induction e generalizing n with
  | name w =>
    intro m hm
    obtain rfl := List.mem_singleton.1 hm
    exact ⟨⟨w, by simp [words], rfl⟩, ⟨w, by simp [words], rfl⟩, placed.pos w (by simp [words])⟩
  | compose left right ihLeft ihRight | product left right ihLeft ihRight =>
    have first := ihLeft (placed.sublist (List.sublist_append_left ..)) n
    have second := ihRight (placed.sublist (List.sublist_append_right ..)) (left.number n).2
    intro m hm
    simp only [number, Node.all, List.mem_append, List.mem_singleton] at hm
    rcases hm with (hm | hm) | rfl
    · exact (first m hm).mono (List.subset_append_left ..)
    · exact (second m hm).mono (List.subset_append_right ..)
    · refine among_merge (first _ (Node.mem_all_self _)) (second _ (Node.mem_all_self _)) ?_
      rw [span_number, span_number]
      rfl

/-- An operation reaches further than everything below it. -/
theorem nodup_extents_merge {a b n : Node} {ws ws' : List Word} (placed : Placed (ws ++ ws'))
    (ha : ∀ m ∈ a.all, m.Among ws) (hb : ∀ m ∈ b.all, m.Among ws')
    (nodupA : (a.all.map Node.extent).Nodup) (nodupB : (b.all.map Node.extent).Nodup)
    (h : n.span = a.span.merge b.span) : ((a.all ++ b.all ++ [n]).map Node.extent).Nodup := by
  have below := nodup_extents_append placed ha hb nodupA nodupB
  have whole := among_merge (ha a (Node.mem_all_self a)) (hb b (Node.mem_all_self b)) h
  rw [List.map_append, List.map_singleton]
  refine below.append (List.nodup_singleton _) fun x hx hx' ↦ ?_
  rw [List.mem_singleton] at hx'
  subst hx'
  obtain ⟨m, mem, same⟩ := List.mem_map.1 hx
  rw [Node.extent, Node.extent, Prod.mk.injEq, h, Span.offset_start_merge,
    Span.offset_stop_merge] at same
  have posA := (ha a (Node.mem_all_self a)).pos
  have posB := (hb b (Node.mem_all_self b)).pos
  rcases List.mem_append.1 mem with mem | mem
  · have := Node.Among.stop_le_start placed (ha m mem) (hb b (Node.mem_all_self b))
    omega
  · have := Node.Among.stop_le_start placed (ha a (Node.mem_all_self a)) (hb m mem)
    omega

/-- No two nodes of an expression have the same extent. -/
theorem nodup_extents_number {e : Expr} (placed : Placed e.words) (n : NodeId) :
    ((e.number n).1.all.map Node.extent).Nodup := by
  induction e generalizing n with
  | name => exact List.nodup_singleton _
  | compose left right ihLeft ihRight | product left right ihLeft ihRight =>
    have first := placed.sublist (List.sublist_append_left left.words right.words)
    have second := placed.sublist (List.sublist_append_right left.words right.words)
    refine nodup_extents_merge placed (among_number first n)
      (among_number second (left.number n).2) (ihLeft first n) (ihRight second _) ?_
    rw [span_number, span_number]
    rfl

end Grammar.Expr

end Taskflow
