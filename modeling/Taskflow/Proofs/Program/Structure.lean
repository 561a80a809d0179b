import Mathlib.Data.List.Nodup
import Taskflow.Program

/-!
# The structure of programs

`Program.WellFormed` collects what every parsed program has and what the theory of typing and of
runs needs: declarations stand only in the functor table, a functor refers to functors before it
alone, ids are distinct, and no two expressions of a program take up the same stretch of text.

References lead backwards in the table, so following them ends.  `Program.Grounded` says so of a
node, and its induction principle is how every proof about references proceeds: a functor name comes
after the body that it stands for.
-/

namespace Taskflow

/-! ## Nodes below a node -/

namespace Node

/-- A node and everything below it, each node behind what is below it. -/
def all : Node → List Node
  | .literal id name span => [.literal id name span]
  | .composition id outer inner span => outer.all ++ inner.all ++ [.composition id outer inner span]
  | .product id left right span => left.all ++ right.all ++ [.product id left right span]
  | .functor id name body span => body.all ++ [.functor id name body span]

/-- Whether no declaration stands in a node. -/
def IsExpr : Node → Prop
  | .literal .. => True
  | .composition _ outer inner _ => outer.IsExpr ∧ inner.IsExpr
  | .product _ left right _ => left.IsExpr ∧ right.IsExpr
  | .functor .. => False

/-- Whether a node is a declaration. -/
def isDeclaration : Node → Bool
  | .functor .. => true
  | _ => false

/-- Where a node begins and where it ends, in bytes. -/
def extent (n : Node) : Nat × Nat := (n.span.start.offset, n.span.stop.offset)

/-- What a node needs a type of before it can have one itself: its operands, or the body that a
functor name stands for. -/
def dependencies (body : String → Option Node) : Node → List Node
  | .literal _ name _ => (body name).toList
  | .composition _ outer inner _ => [inner, outer]
  | .product _ left right _ => [left, right]
  | .functor _ _ body _ => [body]

/-- Every node is among its own. -/
@[simp] theorem mem_all_self (n : Node) : n ∈ n.all := by
  cases n <;> simp [all]

/-- What passes from a node to its operands holds of everything below it. -/
theorem of_mem_all {P : Node → Prop}
    (composition : ∀ {id outer inner span},
      P (.composition id outer inner span) → P outer ∧ P inner)
    (product : ∀ {id left right span}, P (.product id left right span) → P left ∧ P right)
    (functor : ∀ {id name body span}, P (.functor id name body span) → P body)
    {m n : Node} (h : P n) (hm : m ∈ n.all) : P m := by
  induction n with
  | literal id name span =>
    obtain rfl := List.mem_singleton.1 hm
    exact h
  | composition id outer inner span ihOuter ihInner =>
    simp only [all, List.mem_append, List.mem_singleton] at hm
    rcases hm with (hm | hm) | rfl
    · exact ihOuter (composition h).1 hm
    · exact ihInner (composition h).2 hm
    · exact h
  | product id left right span ihLeft ihRight =>
    simp only [all, List.mem_append, List.mem_singleton] at hm
    rcases hm with (hm | hm) | rfl
    · exact ihLeft (product h).1 hm
    · exact ihRight (product h).2 hm
    · exact h
  | functor id name body span ih =>
    simp only [all, List.mem_append, List.mem_singleton] at hm
    rcases hm with hm | rfl
    · exact ih (functor h) hm
    · exact h

/-- What is below something below a node is below that node. -/
theorem all_subset {m n : Node} (h : m ∈ n.all) : m.all ⊆ n.all := by
  refine of_mem_all (P := fun m ↦ m.all ⊆ n.all) ?_ ?_ ?_ (List.Subset.refl _) h
  · exact fun h ↦ ⟨fun x hx ↦ h (by simp [all, hx]), fun x hx ↦ h (by simp [all, hx])⟩
  · exact fun h ↦ ⟨fun x hx ↦ h (by simp [all, hx]), fun x hx ↦ h (by simp [all, hx])⟩
  · exact fun h x hx ↦ h (by simp [all, hx])

/-- No declaration is below an expression. -/
theorem IsExpr.of_mem {m n : Node} (h : n.IsExpr) (hm : m ∈ n.all) : m.IsExpr :=
  of_mem_all (P := IsExpr) (fun h ↦ h) (fun h ↦ h) False.elim h hm

/-- A node refers to the names of the literals below it. -/
theorem mem_references_iff {n : Node} {name : String} :
    name ∈ n.references ↔ ∃ id span, .literal id name span ∈ n.all := by
  induction n with
  | literal => simp [references, all]
  | composition _ outer inner _ ihOuter ihInner =>
    simp [references, all, ihOuter, ihInner, exists_or]
  | product _ left right _ ihLeft ihRight => simp [references, all, ihLeft, ihRight, exists_or]
  | functor _ _ body _ ih => simp [references, all, ih]

theorem IsExpr.isDeclaration_eq {n : Node} (h : n.IsExpr) : n.isDeclaration = false := by
  cases n with
  | functor => exact h.elim
  | _ => rfl

end Node

/-! ## Well-formed programs -/

namespace Program

/-- Every node of a program: the declarations, in the order of the table and each behind its body,
and the root, behind everything below it. -/
def nodes (p : Program) : List Node := p.functors.flatMap (·.2.all) ++ p.root.all

/-- Whether a literal of a program has that name. -/
def Mentions (p : Program) (name : String) : Prop :=
  ∃ id span, .literal id name span ∈ p.nodes

/-- What parsing promises about a program. -/
structure WellFormed (p : Program) : Prop where
  /-- an entry of the functor table is the declaration of its name -/
  entry : ∀ f ∈ p.functors, ∃ id body span, f.2 = .functor id f.1 body span ∧ body.IsExpr
  root : p.root.IsExpr
  distinct : (p.functors.map (·.1)).Nodup
  /-- a functor does not refer to a later one -/
  backward : p.functors.Pairwise fun f g ↦ g.1 ∉ f.2.references
  /-- a functor does not refer to itself -/
  irreflexive : ∀ f ∈ p.functors, f.1 ∉ f.2.references
  ids : (p.nodes.map Node.id).Nodup
  extents : ((p.nodes.filter (!·.isDeclaration)).map Node.extent).Nodup

/-- Following functor names from a node ends. -/
inductive Grounded (p : Program) : Node → Prop
  | task {id name span} : p.functorBody name = none → Grounded p (.literal id name span)
  | named {id name span body} :
    p.functorBody name = some body → Grounded p body → Grounded p (.literal id name span)
  | composition {id outer inner span} :
    Grounded p outer → Grounded p inner → Grounded p (.composition id outer inner span)
  | product {id left right span} :
    Grounded p left → Grounded p right → Grounded p (.product id left right span)
  | functor {id name body span} : Grounded p body → Grounded p (.functor id name body span)

/-- What passes to a node from everything that it depends on holds of every grounded node. -/
theorem Grounded.of_dependencies {p : Program} {P : Node → Prop}
    (step : ∀ n, (∀ m ∈ n.dependencies p.functorBody, P m) → P n) {n : Node} (h : p.Grounded n) :
    P n := by
  induction h with
  | task none => exact step _ (by simp [Node.dependencies, none])
  | named found _ ih => exact step _ (by simpa [Node.dependencies, found] using ih)
  | composition _ _ ihOuter ihInner =>
    refine step _ fun m hm ↦ ?_
    rcases List.mem_pair.1 hm with rfl | rfl
    · exact ihInner
    · exact ihOuter
  | product _ _ ihLeft ihRight =>
    refine step _ fun m hm ↦ ?_
    rcases List.mem_pair.1 hm with rfl | rfl
    · exact ihLeft
    · exact ihRight
  | functor _ ih => exact step _ (by simpa [Node.dependencies] using ih)

/-- The root of a program is one of its nodes. -/
theorem root_mem_nodes (p : Program) : p.root ∈ p.nodes :=
  List.mem_append_right _ (Node.mem_all_self _)

/-- The names of a program are those that its root and its functors refer to. -/
theorem mentions_iff {p : Program} {name : String} : p.Mentions name ↔
      (∃ f ∈ p.functors, name ∈ f.2.references) ∨ name ∈ p.root.references := by
  simp only [Mentions, nodes, List.mem_append, List.mem_flatMap, Node.mem_references_iff]
  constructor
  · rintro ⟨id, span, ⟨f, hf, mem⟩ | mem⟩
    · exact .inl ⟨f, hf, id, span, mem⟩
    · exact .inr ⟨id, span, mem⟩
  · rintro (⟨f, hf, id, span, mem⟩ | ⟨id, span, mem⟩)
    · exact ⟨id, span, .inl ⟨f, hf, mem⟩⟩
    · exact ⟨id, span, .inr mem⟩

namespace WellFormed

variable {p : Program}

/-- The functor table holds the declaration of `name` if and only if `name` stands for its body. -/
theorem functorBody_eq_some_iff (wf : p.WellFormed) {name : String} {body : Node} :
    p.functorBody name = some body ↔
      ∃ id span, (name, .functor id name body span) ∈ p.functors := by
  constructor
  · intro h
    rw [functorBody] at h
    split at h
    next id name' body' span found =>
      cases h
      have mem : (name, Node.functor id name' body span) ∈ p.functors :=
        mem_of_lookup_eq_some found
      obtain ⟨_, _, _, shape, -⟩ := wf.entry _ mem
      dsimp only at shape
      cases shape
      exact ⟨id, span, mem⟩
    next => cases h
  · rintro ⟨id, span, mem⟩
    have found : p.functors.lookup name = some (.functor id name body span) := by
      obtain ⟨before, after, split⟩ := List.append_of_mem mem
      have nodup := wf.distinct
      rw [split, List.map_append, List.map_cons, List.nodup_append'] at nodup
      refine List.lookup_eq_some_iff.2 ⟨before, after, split, fun e he ↦ ?_⟩
      have : e.1 ≠ name := fun same ↦
        nodup.2.2 (List.mem_map.2 ⟨e, he, same⟩) List.mem_cons_self
      simpa using this.symm
    rw [functorBody, found]

/-- A name stands for a body if and only if it is in the functor table. -/
theorem isFunctor_eq (wf : p.WellFormed) (name : String) :
    p.isFunctor name = (p.functorBody name).isSome := by
  rw [isFunctor, functorBody]
  cases found : p.functors.lookup name with
  | none => rfl
  | some node =>
    obtain ⟨_, _, _, shape, -⟩ := wf.entry (name, node) (mem_of_lookup_eq_some found)
    simp only at shape
    simp [shape]

/-- What a functor name stands for is one of the nodes. -/
theorem functorBody_mem_nodes (wf : p.WellFormed) {name : String} {body : Node}
    (h : p.functorBody name = some body) : body ∈ p.nodes := by
  obtain ⟨id, span, mem⟩ := wf.functorBody_eq_some_iff.1 h
  exact List.mem_append_left _ (List.mem_flatMap.2 ⟨_, mem, by simp [Node.all]⟩)

/-- What a functor name stands for is an expression. -/
theorem isExpr_functorBody (wf : p.WellFormed) {name : String} {body : Node}
    (h : p.functorBody name = some body) : body.IsExpr := by
  obtain ⟨id, span, mem⟩ := wf.functorBody_eq_some_iff.1 h
  obtain ⟨_, _, _, shape, expr⟩ := wf.entry _ mem
  cases shape
  exact expr

/-- A functor that a functor refers to stands before it in the table. -/
theorem lt_of_mem_references (wf : p.WellFormed) {i j : Nat} {f g : String × Node}
    (hf : p.functors[i]? = some f) (hg : p.functors[j]? = some g) (h : g.1 ∈ f.2.references) :
    j < i := by
  rcases Nat.lt_trichotomy j i with lt | rfl | gt
  · exact lt
  · obtain rfl := Option.some.inj (hf.symm.trans hg)
    exact (wf.irreflexive _ (List.mem_of_getElem? hf) h).elim
  · obtain ⟨hi, rfl⟩ := List.getElem?_eq_some_iff.1 hf
    obtain ⟨hj, rfl⟩ := List.getElem?_eq_some_iff.1 hg
    exact (List.pairwise_iff_getElem.1 wf.backward i j hi hj gt h).elim

/-- The names that stand for something are those of the functor table. -/
theorem isSome_functorBody_iff (wf : p.WellFormed) {name : String} :
    (p.functorBody name).isSome ↔ name ∈ p.functors.map (·.1) := by
  rw [Option.isSome_iff_exists, List.mem_map]
  constructor
  · rintro ⟨body, stands⟩
    obtain ⟨id, span, mem⟩ := wf.functorBody_eq_some_iff.1 stands
    exact ⟨_, mem, rfl⟩
  · rintro ⟨⟨name, node⟩, mem, rfl⟩
    obtain ⟨id, body, span, shape, -⟩ := wf.entry _ mem
    dsimp only at shape
    subst shape
    exact ⟨body, wf.functorBody_eq_some_iff.2 ⟨id, span, mem⟩⟩

/-- What a functor refers to stands before it. -/
theorem mem_before (wf : p.WellFormed) {before after : Table Node} {entry : String × Node}
    (split : p.functors = before ++ entry :: after) {name : String}
    (mem : name ∈ entry.2.references) (stands : (p.functorBody name).isSome) :
    name ∈ before.map (·.1) := by
  have here : p.functors[before.length]? = some entry := by simp [split]
  obtain ⟨other, mem', rfl⟩ := List.mem_map.1 (wf.isSome_functorBody_iff.1 stands)
  obtain ⟨j, hj⟩ := List.mem_iff_getElem?.1 mem'
  have lt := wf.lt_of_mem_references here hj mem
  rw [split, List.getElem?_append_left lt] at hj
  exact List.mem_map.2 ⟨_, List.mem_of_getElem? hj, rfl⟩

/-- An expression is grounded if every functor body that it refers to is. -/
theorem grounded_of_references {n : Node} (expr : n.IsExpr)
    (h : ∀ name ∈ n.references, ∀ body, p.functorBody name = some body → p.Grounded body) :
    p.Grounded n := by
  induction n with
  | literal id name span =>
    cases found : p.functorBody name with
    | none => exact .task found
    | some body => exact .named found (h name (by simp [Node.references]) body found)
  | composition id outer inner span ihOuter ihInner =>
    exact .composition (ihOuter expr.1 fun x hx ↦ h x (by simp [Node.references, hx]))
      (ihInner expr.2 fun x hx ↦ h x (by simp [Node.references, hx]))
  | product id left right span ihLeft ihRight =>
    exact .product (ihLeft expr.1 fun x hx ↦ h x (by simp [Node.references, hx]))
      (ihRight expr.2 fun x hx ↦ h x (by simp [Node.references, hx]))
  | functor => exact expr.elim

/-- What a functor name stands for is grounded: by induction on its place in the table. -/
theorem grounded_functorBody (wf : p.WellFormed) {name : String} {body : Node}
    (h : p.functorBody name = some body) : p.Grounded body := by
  obtain ⟨id, span, mem⟩ := wf.functorBody_eq_some_iff.1 h
  obtain ⟨i, hi⟩ := List.mem_iff_getElem?.1 mem
  induction i using Nat.strongRecOn generalizing name body id span with
  | ind i ih =>
    refine grounded_of_references (wf.isExpr_functorBody h) fun other ref next found ↦ ?_
    obtain ⟨id', span', mem'⟩ := wf.functorBody_eq_some_iff.1 found
    obtain ⟨j, hj⟩ := List.mem_iff_getElem?.1 mem'
    exact ih j (wf.lt_of_mem_references hi hj ref) found id' span' mem' hj

/-- Every expression is grounded, whatever it refers to. -/
theorem grounded_of_isExpr (wf : p.WellFormed) {n : Node} (expr : n.IsExpr) : p.Grounded n :=
  grounded_of_references expr fun _ _ _ found ↦ wf.grounded_functorBody found

/-- Every node of a well-formed program is grounded. -/
theorem grounded (wf : p.WellFormed) {n : Node} (h : n ∈ p.nodes) : p.Grounded n := by
  rw [nodes, List.mem_append, List.mem_flatMap] at h
  rcases h with ⟨f, mem, h⟩ | h
  · obtain ⟨id, body, span, shape, expr⟩ := wf.entry f mem
    rw [shape, Node.all, List.mem_append, List.mem_singleton] at h
    rcases h with h | rfl
    · exact wf.grounded_of_isExpr (expr.of_mem h)
    · exact .functor (wf.grounded_of_isExpr expr)
  · exact wf.grounded_of_isExpr (wf.root.of_mem h)

/-- A program contains what its nodes depend on. -/
theorem mem_nodes_of_mem_dependencies (wf : p.WellFormed) {m n : Node}
    (hn : n ∈ p.nodes) (hm : m ∈ n.dependencies p.functorBody) : m ∈ p.nodes := by
  -- an operand stands in the same tree, a body in the functor table
  have below : ∀ m, m ∈ n.all → m ∈ p.nodes := by
    intro m hm
    rw [nodes, List.mem_append, List.mem_flatMap] at hn ⊢
    rcases hn with ⟨entry, mem, hn⟩ | hn
    · exact .inl ⟨entry, mem, Node.all_subset hn hm⟩
    · exact .inr (Node.all_subset hn hm)
  cases n with
  | literal id name span =>
    exact wf.functorBody_mem_nodes (Option.mem_toList.1 hm)
  | composition id outer inner span =>
    rcases List.mem_pair.1 hm with rfl | rfl
    · exact below _ (by simp [Node.all])
    · exact below _ (by simp [Node.all])
  | product id left right span =>
    rcases List.mem_pair.1 hm with rfl | rfl
    · exact below _ (by simp [Node.all])
    · exact below _ (by simp [Node.all])
  | functor id name body span =>
    obtain rfl := List.mem_singleton.1 hm
    exact below _ (by simp [Node.all])

/-- A program contains the body that a name stands for. -/
theorem body_mem_nodes (wf : p.WellFormed) {id : NodeId} {name : String} {body : Node} {span : Span}
    (h : .literal id name span ∈ p.nodes) (stands : p.functorBody name = some body) :
    body ∈ p.nodes :=
  wf.mem_nodes_of_mem_dependencies h (by simp [Node.dependencies, stands])

/-- A program contains the operands of a composition. -/
theorem operands_mem_nodes (wf : p.WellFormed) {id : NodeId} {outer inner : Node} {span : Span}
    (h : .composition id outer inner span ∈ p.nodes) : outer ∈ p.nodes ∧ inner ∈ p.nodes :=
  ⟨wf.mem_nodes_of_mem_dependencies h (by simp [Node.dependencies]),
    wf.mem_nodes_of_mem_dependencies h (by simp [Node.dependencies])⟩

/-- A program contains the branches of a product. -/
theorem branches_mem_nodes (wf : p.WellFormed) {id : NodeId} {left right : Node} {span : Span}
    (h : .product id left right span ∈ p.nodes) : left ∈ p.nodes ∧ right ∈ p.nodes :=
  ⟨wf.mem_nodes_of_mem_dependencies h (by simp [Node.dependencies]),
    wf.mem_nodes_of_mem_dependencies h (by simp [Node.dependencies])⟩

/-- A program contains the body of a declaration. -/
theorem declared_mem_nodes (wf : p.WellFormed) {id : NodeId} {name : String} {body : Node}
    {span : Span} (h : .functor id name body span ∈ p.nodes) : body ∈ p.nodes :=
  wf.mem_nodes_of_mem_dependencies h (by simp [Node.dependencies])

/-- Nodes of a well-formed program are told apart by their ids. -/
theorem eq_of_id_eq (wf : p.WellFormed) {m n : Node} (hm : m ∈ p.nodes) (hn : n ∈ p.nodes)
    (h : m.id = n.id) : m = n :=
  List.inj_on_of_nodup_map wf.ids hm hn h

end WellFormed

end Program

end Taskflow
