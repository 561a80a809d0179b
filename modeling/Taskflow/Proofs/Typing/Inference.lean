import Taskflow.Proofs.Typing.Rules

/-!
# What inference finds

Inference writes down types and errors as it walks over a program.  `Findings.Covers` says that what
it has written down is what the typing rules say of the nodes that it has visited.  Each way to
leave a node, with its type, with a report or with neither, keeps it; so does inferring a node, then
a functor table, then a program (`Program.infer_covers`).

The invariant does not depend on the order of the visits, which differs from the order of the nodes.
-/

namespace Taskflow

variable {p : Program} {env : Environment} {visited : List Node} {f : Findings} {n : Node}

namespace Findings

/-- What has been found is what the typing rules say of the nodes in `visited`. -/
structure Covers (p : Program) (env : Environment) (visited : List Node) (f : Findings) :
    Prop where
  types : ∀ i t, f.nodeTypes.get? i = some t ↔ ∃ n ∈ visited, n.id = i ∧ p.HasType env n t
  /-- a node at fault has one report -/
  reported : ∀ n ∈ visited, p.Faulty env n →
    ∃ e, f.errors.filter (·.node = n.id) = [e] ∧ p.Reports env n e
  /-- a report has a node at fault -/
  justified : ∀ e ∈ f.errors, ∃ n ∈ visited, p.Faulty env n ∧ e.node = n.id

namespace Covers

/-- Before the first visit nothing has been found. -/
theorem none (p : Program) (env : Environment) : Findings.none.Covers p env [] where
  types i t := by simp [Findings.none]
  reported n hn := by simp at hn
  justified e he := by simp [Findings.none] at he

/-- The order of the visits does not matter. -/
theorem perm {visited' : List Node} (covers : f.Covers p env visited)
    (same : visited.Perm visited') : f.Covers p env visited' where
  types i t := by
    simp only [covers.types, same.mem_iff]
  reported n hn := covers.reported n (same.mem_iff.2 hn)
  justified e he := by
    obtain ⟨n, hn, rest⟩ := covers.justified e he
    exact ⟨n, same.mem_iff.1 hn, rest⟩

/-- What is found does not depend on the functor types. -/
theorem of_eq {f' : Findings} (covers : f.Covers p env visited)
    (types : f'.nodeTypes = f.nodeTypes) (errors : f'.errors = f.errors) :
    f'.Covers p env visited where
  types := types ▸ covers.types
  reported := errors ▸ covers.reported
  justified := errors ▸ covers.justified

/-- A node without a type adds no type. -/
theorem types_append (covers : f.Covers p env visited) (untyped : ¬ p.Typed env n) (i : NodeId)
    (t : Ty) :
    f.nodeTypes.get? i = some t ↔ ∃ m ∈ visited ++ [n], m.id = i ∧ p.HasType env m t := by
  rw [covers.types]
  constructor
  · rintro ⟨m, hm, rest⟩
    exact ⟨m, List.mem_append_left _ hm, rest⟩
  · rintro ⟨m, hm, same, h⟩
    rcases List.mem_append.1 hm with hm | hm
    · exact ⟨m, hm, same, h⟩
    · obtain rfl := List.mem_singleton.1 hm
      exact (untyped ⟨t, h⟩).elim

/-- A report stays justified when further nodes are visited. -/
theorem justified_append (covers : f.Covers p env visited) {e : TypeError} (he : e ∈ f.errors) :
    ∃ m ∈ visited ++ [n], p.Faulty env m ∧ e.node = m.id := by
  obtain ⟨m, hm, rest⟩ := covers.justified e he
  exact ⟨m, List.mem_append_left _ hm, rest⟩

/-- A node is left with its type. -/
theorem record {t : Ty} (covers : f.Covers p env visited) (fresh : n.id ∉ visited.map Node.id)
    (typed : p.HasType env n t) : (f.record n.id (some t)).2.Covers p env (visited ++ [n]) where
  types i u := by
    rw [Findings.record, SortedMap.get?_insert]
    split
    next same =>
      constructor
      · rintro ⟨⟩
        exact ⟨n, by simp, same.symm, typed⟩
      · rintro ⟨m, hm, rfl, h⟩
        rcases List.mem_append.1 hm with hm | hm
        · exact (fresh (List.mem_map.2 ⟨m, hm, same⟩)).elim
        · obtain rfl := List.mem_singleton.1 hm
          rw [typed.unique h]
    next differ =>
      rw [covers.types]
      constructor
      · rintro ⟨m, hm, rest⟩
        exact ⟨m, List.mem_append_left _ hm, rest⟩
      · rintro ⟨m, hm, rfl, h⟩
        rcases List.mem_append.1 hm with hm | hm
        · exact ⟨m, hm, rfl, h⟩
        · obtain rfl := List.mem_singleton.1 hm
          exact (differ rfl).elim
  reported m hm faulty := by
    rcases List.mem_append.1 hm with hm | hm
    · exact covers.reported m hm faulty
    · obtain rfl := List.mem_singleton.1 hm
      exact (faulty.2 ⟨t, typed⟩).elim
  justified _ he := covers.justified_append he

/-- A node at fault is left with a report. -/
theorem report {e : TypeError} (covers : f.Covers p env visited)
    (fresh : n.id ∉ visited.map Node.id) (faulty : p.Faulty env n) (report : p.Reports env n e) :
    (f.report e).Covers p env (visited ++ [n]) where
  types := covers.types_append faulty.2
  reported m hm faulty' := by
    rw [Findings.report, List.filter_append]
    rcases List.mem_append.1 hm with hm | hm
    · have differ : e.node ≠ m.id := fun same ↦
        fresh (List.mem_map.2 ⟨m, hm, same.symm.trans report.node_eq⟩)
      simpa [differ] using covers.reported m hm faulty'
    · obtain rfl := List.mem_singleton.1 hm
      refine ⟨e, ?_, report⟩
      have none : f.errors.filter (·.node = m.id) = [] := by
        refine List.filter_eq_nil_iff.2 fun e' he' same ↦ ?_
        obtain ⟨m', hm', -, named⟩ := covers.justified e' he'
        exact fresh (List.mem_map.2 ⟨m', hm', named.symm.trans (of_decide_eq_true same)⟩)
      simp [none, report.node_eq]
  justified e' he' := by
    rcases List.mem_append.1 he' with he' | he'
    · exact covers.justified_append he'
    · obtain rfl := List.mem_singleton.1 he'
      exact ⟨n, by simp, faulty, report.node_eq⟩

/-- A node is left alone: it has no type, because something that it depends on has none. -/
theorem skip {m : Node} (covers : f.Covers p env visited)
    (depends : m ∈ n.dependencies p.functorBody) (untyped : ¬ p.Typed env m) :
    f.Covers p env (visited ++ [n]) where
  types := covers.types_append fun typed ↦ untyped (typed.of_mem_dependencies depends)
  reported k hk faulty := by
    rcases List.mem_append.1 hk with hk | hk
    · exact covers.reported k hk faulty
    · obtain rfl := List.mem_singleton.1 hk
      exact (untyped (faulty.1 m depends)).elim
  justified _ he := covers.justified_append he

end Covers

/-- The types of the functors in `names` are known, and no others. -/
def Knows (p : Program) (env : Environment) (names : List String) (f : Findings) : Prop :=
  ∀ name t, f.functorTypes.get? name = some t ↔
    name ∈ names ∧ ∃ body, p.functorBody name = some body ∧ p.HasType env body t

end Findings

/-! ## Expressions -/

namespace Ty

theorem compose?_fn (a b b' c : Ty) :
    (fn b' c).compose? (fn a b) =
      if b.compatible b' then some (.fn (a.apply (b.bind b' [])) (c.apply (b'.bind b [])))
      else none :=
  rfl

theorem product?_fn (a b a' c : Ty) :
    (fn a b).product? (fn a' c) =
      if a.compatible a' then
        some (.fn (if a.isVar then a' else a)
          (.prod (b.apply (a.bind a' [])) (c.apply (a'.bind a []))))
      else none :=
  rfl

end Ty

/-- What inferring the type of `n` has to achieve: it yields the type of `n` if there is one, and it
finds what there is to say of `n` and everything below. -/
structure Infers (p : Program) (env : Environment) (visited : List Node) (f : Findings) (n : Node)
    (r : Option Ty × Findings) : Prop where
  type : ∀ t, r.1 = some t ↔ p.HasType env n t
  covers : r.2.Covers p env (visited ++ n.all)
  functorTypes : r.2.functorTypes = f.functorTypes

namespace Infers

variable {before : List Node} {f' : Findings}

theorem record {t : Ty} (covers : f'.Covers p env before)
    (order : (before ++ [n]).Perm (visited ++ n.all))
    (fresh : n.id ∉ before.map Node.id) (same : f'.functorTypes = f.functorTypes)
    (typed : p.HasType env n t) : Infers p env visited f n (f'.record n.id (some t)) where
  type u := by
    constructor
    · rintro ⟨⟩
      exact typed
    · exact fun h ↦ congrArg some (typed.unique h)
  covers := (covers.record fresh typed).perm order
  functorTypes := same

theorem report {e : TypeError} (covers : f'.Covers p env before)
    (order : (before ++ [n]).Perm (visited ++ n.all)) (fresh : n.id ∉ before.map Node.id)
    (same : f'.functorTypes = f.functorTypes) (faulty : p.Faulty env n)
    (report : p.Reports env n e) : Infers p env visited f n (none, f'.report e) where
  type u := by
    constructor
    · rintro ⟨⟩
    · exact fun h ↦ (faulty.2 ⟨u, h⟩).elim
  covers := (covers.report fresh faulty report).perm order
  functorTypes := same

theorem skip {m : Node} (covers : f'.Covers p env before)
    (order : (before ++ [n]).Perm (visited ++ n.all)) (same : f'.functorTypes = f.functorTypes)
    (depends : m ∈ n.dependencies p.functorBody) (untyped : ¬ p.Typed env m) :
    Infers p env visited f n (none, f') where
  type u := by
    constructor
    · rintro ⟨⟩
    · exact fun h ↦ (untyped (Program.Typed.of_mem_dependencies ⟨u, h⟩ depends)).elim
  covers := (covers.skip depends untyped).perm order
  functorTypes := same

/-- Where inference yields no type there is none. -/
theorem untyped {r : Option Ty × Findings} (h : Infers p env visited f n r) (none : r.1 = none) :
    ¬ p.Typed env n := by
  rintro ⟨t, typed⟩
  cases none.symm.trans ((h.type t).2 typed)

end Infers

section Expressions

variable {names : List String}

theorem Findings.Knows.of_eq {f' : Findings} (known : f.Knows p env names)
    (same : f'.functorTypes = f.functorTypes) : f'.Knows p env names := by
  intro name t
  rw [same]
  exact known name t

/-- Inferring a name finds what there is to say of it. -/
theorem infers_literal (wf : p.WellFormed) {id : NodeId} {name : String} {span : Span}
    (known : f.Knows p env names) (bound : (p.functorBody name).isSome → name ∈ names)
    (covers : f.Covers p env visited) (fresh : id ∉ visited.map Node.id) :
    Infers p env visited f (.literal id name span)
      (infer p.isFunctor env f (.literal id name span)) := by
  rw [infer, wf.isFunctor_eq]
  cases found : p.functorBody name with
  | some body =>
    rw [if_pos Option.isSome_some]
    cases type : f.functorTypes.get? name with
    | some t =>
      obtain ⟨-, body', found', typed⟩ := (known name t).1 type
      exact .record covers (List.Perm.refl _) fresh rfl (.named found' typed)
    | none =>
      refine .skip covers (List.Perm.refl _) rfl (m := body) (by simp [Node.dependencies, found]) ?_
      rintro ⟨t, typed⟩
      cases type.symm.trans ((known name t).2 ⟨bound (by simp [found]), body, found, typed⟩)
  | none =>
    rw [if_neg (by simp)]
    cases declared : env.get? name with
    | some t => exact .record covers (List.Perm.refl _) fresh rfl (.task found declared)
    | none =>
      refine .report covers (List.Perm.refl _) fresh rfl ⟨?_, ?_⟩ .unbound
      · simp [Node.dependencies, found]
      · rw [Program.typed_task_iff found, declared]
        simp

/-- Inference visits the inner operand of a composition first. -/
theorem perm_all_composition (visited : List Node) (id : NodeId) (outer inner : Node)
    (span : Span) :
    (visited ++ inner.all ++ outer.all ++ [Node.composition id outer inner span]).Perm
      (visited ++ (Node.composition id outer inner span).all) := by
  simp only [Node.all, List.append_assoc]
  refine .append_left _ ?_
  simpa only [List.append_assoc] using List.perm_append_comm.append_right _

/-- Inference visits the left branch of a product first. -/
theorem perm_all_product (visited : List Node) (id : NodeId) (left right : Node) (span : Span) :
    (visited ++ left.all ++ right.all ++ [Node.product id left right span]).Perm
      (visited ++ (Node.product id left right span).all) := by
  simp [Node.all]

/-- If ids are distinct at the end of a visit they are so at each point on the way. -/
theorem nodup_id_append {first second : List Node}
    (fresh : ((visited ++ first ++ second ++ [n]).map Node.id).Nodup) :
    ((visited ++ first).map Node.id).Nodup ∧ ((visited ++ first ++ second).map Node.id).Nodup ∧
      n.id ∉ (visited ++ first ++ second).map Node.id := by
  rw [List.map_append, List.nodup_append'] at fresh
  obtain ⟨both, -, apart⟩ := fresh
  refine ⟨?_, both, fun mem ↦ apart mem (by simp)⟩
  rw [List.map_append] at both
  exact both.of_append_left

/-- Inferring a composition finds what there is to say of it, if inferring its operands does. -/
theorem infers_composition {id : NodeId} {outer inner : Node} {span : Span}
    (first : Infers p env visited f inner (infer p.isFunctor env f inner))
    (second : Infers p env (visited ++ inner.all) (infer p.isFunctor env f inner).2 outer
      (infer p.isFunctor env (infer p.isFunctor env f inner).2 outer))
    (fresh : id ∉ (visited ++ inner.all ++ outer.all).map Node.id) :
    Infers p env visited f (.composition id outer inner span)
      (infer p.isFunctor env f (.composition id outer inner span)) := by
  have order := perm_all_composition visited id outer inner span
  rw [infer]
  generalize infer p.isFunctor env f inner = r at first second
  obtain ⟨innerTy, f₁⟩ := r
  dsimp only at second ⊢
  generalize infer p.isFunctor env f₁ outer = r at second
  obtain ⟨outerTy, f₂⟩ := r
  have covers := second.covers
  have same : f₂.functorTypes = f.functorTypes := second.functorTypes.trans first.functorTypes
  cases innerTy with
  | none =>
    have untyped := first.untyped rfl
    cases outerTy <;> exact .skip covers order same (List.mem_pair.2 (.inl rfl)) untyped
  | some i =>
    cases outerTy with
    | none => exact .skip covers order same (List.mem_pair.2 (.inr rfl)) (second.untyped rfl)
    | some o =>
      have hInner := (first.type i).1 rfl
      have hOuter := (second.type o).1 rfl
      obtain ⟨a, b, rfl⟩ := hInner.isFn
      obtain ⟨b', c, rfl⟩ := hOuter.isFn
      dsimp only
      rw [Ty.compose?_fn, Ty.arrow_fn, Ty.arrow_fn]
      by_cases fits : b.compatible b'
      · rw [if_pos fits]
        exact .record covers order fresh same (.composition hInner hOuter fits)
      · rw [if_neg fits]
        refine .report covers order fresh same ⟨?_, ?_⟩ (.composition hInner hOuter)
        · intro m hm
          rcases List.mem_pair.1 hm with rfl | rfl
          · exact ⟨_, hInner⟩
          · exact ⟨_, hOuter⟩
        · rwa [Program.typed_composition_iff hInner hOuter]

/-- Inferring a product finds what there is to say of it, if inferring its branches does. -/
theorem infers_product {id : NodeId} {left right : Node} {span : Span}
    (first : Infers p env visited f left (infer p.isFunctor env f left))
    (second : Infers p env (visited ++ left.all) (infer p.isFunctor env f left).2 right
      (infer p.isFunctor env (infer p.isFunctor env f left).2 right))
    (fresh : id ∉ (visited ++ left.all ++ right.all).map Node.id) :
    Infers p env visited f (.product id left right span)
      (infer p.isFunctor env f (.product id left right span)) := by
  have order := perm_all_product visited id left right span
  rw [infer]
  generalize infer p.isFunctor env f left = r at first second
  obtain ⟨leftTy, f₁⟩ := r
  dsimp only at second ⊢
  generalize infer p.isFunctor env f₁ right = r at second
  obtain ⟨rightTy, f₂⟩ := r
  have covers := second.covers
  have same : f₂.functorTypes = f.functorTypes := second.functorTypes.trans first.functorTypes
  cases leftTy with
  | none => exact .skip covers order same (List.mem_pair.2 (.inl rfl)) (first.untyped rfl)
  | some l =>
    cases rightTy with
    | none => exact .skip covers order same (List.mem_pair.2 (.inr rfl)) (second.untyped rfl)
    | some r =>
      have hLeft := (first.type l).1 rfl
      have hRight := (second.type r).1 rfl
      obtain ⟨a, b, rfl⟩ := hLeft.isFn
      obtain ⟨a', c, rfl⟩ := hRight.isFn
      dsimp only
      rw [Ty.product?_fn, Ty.arrow_fn, Ty.arrow_fn]
      by_cases fits : a.compatible a'
      · rw [if_pos fits]
        exact .record covers order fresh same (.product hLeft hRight fits)
      · rw [if_neg fits]
        refine .report covers order fresh same ⟨?_, ?_⟩ (.product hLeft hRight)
        · intro m hm
          rcases List.mem_pair.1 hm with rfl | rfl
          · exact ⟨_, hLeft⟩
          · exact ⟨_, hRight⟩
        · rwa [Program.typed_product_iff hLeft hRight]

/-- Inferring an expression finds what there is to say of it, if the types of the functors that it
refers to are known. -/
theorem infers_expr (wf : p.WellFormed) (expr : n.IsExpr) (known : f.Knows p env names)
    (bound : ∀ name ∈ n.references, (p.functorBody name).isSome → name ∈ names)
    (covers : f.Covers p env visited) (fresh : ((visited ++ n.all).map Node.id).Nodup) :
    Infers p env visited f n (infer p.isFunctor env f n) := by
  induction n generalizing f visited with
  | literal id name span =>
    rw [Node.all, List.map_append, List.nodup_append'] at fresh
    refine infers_literal wf known (bound name (by simp [Node.references])) covers fun mem ↦ ?_
    exact fresh.2.2 mem (by simp [Node.id])
  | composition id outer inner span ihOuter ihInner =>
    have order := perm_all_composition visited id outer inner span
    obtain ⟨fresh, fresh', own⟩ := nodup_id_append ((order.map Node.id).nodup_iff.2 fresh)
    have first :=
      ihInner expr.2 known (fun x hx ↦ bound x (List.mem_append_right _ hx)) covers fresh
    have second := ihOuter expr.1 (known.of_eq first.functorTypes)
      (fun x hx ↦ bound x (List.mem_append_left _ hx)) first.covers fresh'
    exact infers_composition first second own
  | product id left right span ihLeft ihRight =>
    have order := perm_all_product visited id left right span
    obtain ⟨fresh, fresh', own⟩ := nodup_id_append ((order.map Node.id).nodup_iff.2 fresh)
    have first := ihLeft expr.1 known (fun x hx ↦ bound x (List.mem_append_left _ hx)) covers fresh
    have second := ihRight expr.2 (known.of_eq first.functorTypes)
      (fun x hx ↦ bound x (List.mem_append_right _ hx)) first.covers fresh'
    exact infers_product first second own
  | functor => exact expr.elim

end Expressions

/-! ## Programs -/

/-- Inferring a declaration finds what there is to say of it and adds its functor to those known. -/
theorem infer_declaration (wf : p.WellFormed) {names : List String} {entry : String × Node}
    (mem : entry ∈ p.functors) (known : f.Knows p env names)
    (bound : ∀ name ∈ entry.2.references, (p.functorBody name).isSome → name ∈ names)
    (new : entry.1 ∉ names) (covers : f.Covers p env visited)
    (fresh : ((visited ++ entry.2.all).map Node.id).Nodup) :
    (infer p.isFunctor env f entry.2).2.Knows p env (names ++ [entry.1]) ∧
      (infer p.isFunctor env f entry.2).2.Covers p env (visited ++ entry.2.all) := by
  obtain ⟨name, node⟩ := entry
  obtain ⟨id, body, span, shape, expr⟩ := wf.entry _ mem
  dsimp only at shape bound new fresh ⊢
  subst shape
  have stands : p.functorBody name = some body := wf.functorBody_eq_some_iff.2 ⟨id, span, mem⟩
  rw [Node.all, ← List.append_assoc, List.map_append, List.nodup_append'] at fresh
  obtain ⟨fresh, -, apart⟩ := fresh
  have own : id ∉ (visited ++ body.all).map Node.id := fun mem ↦ apart mem (by simp [Node.id])
  have inferred := infers_expr wf expr known bound covers fresh
  rw [infer, Node.all, ← List.append_assoc]
  generalize infer p.isFunctor env f body = r at inferred
  obtain ⟨type, f'⟩ := r
  have known' := known.of_eq inferred.functorTypes
  cases type with
  | none =>
    have untyped := inferred.untyped rfl
    refine ⟨fun other t ↦ (known' other t).trans ?_,
      inferred.covers.skip (List.mem_singleton.2 rfl) untyped⟩
    rw [List.mem_append, List.mem_singleton]
    constructor
    · rintro ⟨mem, rest⟩
      exact ⟨.inl mem, rest⟩
    · rintro ⟨mem | rfl, body', stands', typed⟩
      · exact ⟨mem, body', stands', typed⟩
      · obtain rfl := Option.some.inj (stands.symm.trans stands')
        exact (untyped ⟨t, typed⟩).elim
  | some t =>
    have typed := (inferred.type t).1 rfl
    constructor
    · intro other u
      simp only [Findings.record, SortedMap.get?_insert, List.mem_append, List.mem_singleton]
      split
      next same =>
        subst same
        constructor
        · rintro ⟨⟩
          exact ⟨.inr rfl, body, stands, typed⟩
        · rintro ⟨-, body', stands', typed'⟩
          obtain rfl := Option.some.inj (stands.symm.trans stands')
          rw [typed.unique typed']
      next differ => simpa [differ] using known' other u
    · refine Findings.Covers.record (n := .functor id name body span) ?_ own (.functor typed)
      exact inferred.covers.of_eq rfl rfl

/-- Inferring the rest of the functor table, once its beginning is known, makes all of it known. -/
theorem inferAll_covers (wf : p.WellFormed) {before after : List (String × Node)}
    (split : p.functors = before ++ after) (known : f.Knows p env (before.map (·.1)))
    (covers : f.Covers p env (before.flatMap (·.2.all))) :
    (inferAll p.isFunctor env f (after.map (·.2))).Knows p env (p.functors.map (·.1)) ∧
      (inferAll p.isFunctor env f (after.map (·.2))).Covers p env
        (p.functors.flatMap (·.2.all)) := by
  induction after generalizing before f with
  | nil =>
    rw [split, List.append_nil]
    exact ⟨known, covers⟩
  | cons entry after ih =>
    have distinct := wf.distinct
    have ids := wf.ids
    rw [split, List.map_append, List.map_cons, List.nodup_append'] at distinct
    rw [Program.nodes, split, List.flatMap_append, List.flatMap_cons, List.append_assoc,
      List.append_assoc, ← List.append_assoc, List.map_append] at ids
    have new : entry.1 ∉ before.map (·.1) := fun mem ↦ distinct.2.2 mem List.mem_cons_self
    have mem : entry ∈ p.functors := split ▸ List.mem_append_right _ List.mem_cons_self
    obtain ⟨known, covers⟩ :=
      infer_declaration wf mem known (fun _ ↦ wf.mem_before split) new covers
      ids.of_append_left
    rw [List.map_cons, inferAll, List.foldl_cons]
    have split' : p.functors = (before ++ [entry]) ++ after := by simp [split]
    refine ih split' ?_ ?_
    · simpa using known
    · simpa using covers

/-- Inferring a program yields the type of its root if there is one, and finds what there is to say
of all its nodes. -/
theorem Program.infer_covers (wf : p.WellFormed) (env : Environment) :
    (∀ t, (p.infer env).1 = some t ↔ p.HasType env p.root t) ∧
      (p.infer env).2.Covers p env p.nodes ∧
      (p.infer env).2.Knows p env (p.functors.map (·.1)) := by
  have none : Findings.none.Knows p env [] := fun name t ↦ by simp [Findings.none]
  obtain ⟨known, covers⟩ := inferAll_covers wf (List.nil_append _).symm none (.none p env)
  have inferred :=
    infers_expr wf wf.root known (fun _ _ ↦ wf.isSome_functorBody_iff.1) covers wf.ids
  exact ⟨inferred.type, inferred.covers, known.of_eq inferred.functorTypes⟩

end Taskflow
