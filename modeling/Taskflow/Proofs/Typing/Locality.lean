import Taskflow.Proofs.Program.Removal
import Taskflow.Proofs.SortedMap
import Taskflow.Proofs.Typing.Exactness

/-!
# Typing is local

The type of a node depends on the names below it: on what each of them stands for, and on the type
that a task of that name has.  It depends on nothing else in the program or in its environment.  So
where a program is part of another one (`Program.PartOf`), its nodes have there the types that they
have by themselves, and they are at fault there for the same reasons.  What a report says of the
part is therefore what the report of the whole says of it (`PartOf.errors_eq`,
`PartOf.get?_nodeTypes_eq`).
-/

namespace Taskflow

namespace Program

/-- Whether `p` is part of `q`: its nodes are nodes of `q`, the names that it mentions stand for the
same in `q`, and the tasks among them have the same types in both environments. -/
structure PartOf (p : Program) (env : Environment) (q : Program) (env' : Environment) : Prop where
  nodes : p.nodes ⊆ q.nodes
  bodies : ∀ name, p.Mentions name → q.functorBody name = p.functorBody name
  tasks : ∀ name, p.Mentions name → p.functorBody name = none → env'.get? name = env.get? name

variable {p q : Program} {env env' : Environment}

/-- What is said of a node is said of it wherever all that it depends on has the same types. -/
theorem Reports.of_dependencies {n : Node} {e : TypeError} (h : p.Reports env n e)
    (same : ∀ m ∈ n.dependencies p.functorBody, ∀ t, p.HasType env m t → q.HasType env' m t) :
    q.Reports env' n e := by
  cases h with
  | unbound => exact .unbound
  | composition hInner hOuter =>
    exact .composition (same _ (List.mem_pair.2 (.inl rfl)) _ hInner)
      (same _ (List.mem_pair.2 (.inr rfl)) _ hOuter)
  | product hLeft hRight =>
    exact .product (same _ (List.mem_pair.2 (.inl rfl)) _ hLeft)
      (same _ (List.mem_pair.2 (.inr rfl)) _ hRight)

namespace PartOf

variable (part : p.PartOf env q env')
include part

/-- A node of the part depends on nothing else in the whole. -/
theorem dependencies_eq {n : Node} (hn : n ∈ p.nodes) :
    n.dependencies q.functorBody = n.dependencies p.functorBody := by
  cases n with
  | literal id name span =>
    rw [Node.dependencies, Node.dependencies, part.bodies name ⟨id, span, hn⟩]
  | _ => rfl

variable (wf : p.WellFormed)
include wf

/-- A node of the part has the same type in the whole: by induction along its dependencies. -/
theorem hasType_iff {n : Node} (hn : n ∈ p.nodes) (t : Ty) :
    q.HasType env' n t ↔ p.HasType env n t := by
  let Same (n : Node) : Prop := n ∈ p.nodes → ∀ t, q.HasType env' n t ↔ p.HasType env n t
  refine (wf.grounded hn).of_dependencies (P := Same) ?_ hn t
  intro n ih hn t
  have ih {m} (hm : m ∈ n.dependencies p.functorBody) :=
    ih m hm (wf.mem_nodes_of_mem_dependencies hn hm)
  cases n with
  | literal id name span =>
    have stands := part.bodies name ⟨id, span, hn⟩
    cases found : p.functorBody name with
    | none =>
      rw [hasType_task_iff found, hasType_task_iff (stands.trans found),
        part.tasks name ⟨id, span, hn⟩ found]
    | some body =>
      rw [hasType_named_iff found, hasType_named_iff (stands.trans found)]
      exact ih (by simp [Node.dependencies, found]) t
  | composition id outer inner span =>
    have hInner := ih (List.mem_pair.2 (.inl rfl))
    have hOuter := ih (List.mem_pair.2 (.inr rfl))
    simp only [hasType_composition_iff, hInner, hOuter]
  | product id left right span =>
    have hLeft := ih (List.mem_pair.2 (.inl rfl))
    have hRight := ih (List.mem_pair.2 (.inr rfl))
    simp only [hasType_product_iff, hLeft, hRight]
  | functor id name body span =>
    rw [hasType_functor_iff, hasType_functor_iff]
    exact ih (List.mem_singleton.2 rfl) t

theorem typed_iff {n : Node} (hn : n ∈ p.nodes) : q.Typed env' n ↔ p.Typed env n :=
  exists_congr fun t ↦ part.hasType_iff wf hn t

theorem faulty_iff {n : Node} (hn : n ∈ p.nodes) : q.Faulty env' n ↔ p.Faulty env n := by
  rw [Faulty, Faulty, part.dependencies_eq hn, part.typed_iff wf hn]
  refine and_congr_left fun _ ↦ forall₂_congr fun m hm ↦ ?_
  exact part.typed_iff wf (wf.mem_nodes_of_mem_dependencies hn hm)

theorem reports_iff {n : Node} (hn : n ∈ p.nodes) {e : TypeError} :
    q.Reports env' n e ↔ p.Reports env n e := by
  have same {m : Node} (hm : m ∈ n.dependencies p.functorBody) (t : Ty) :=
    part.hasType_iff wf (wf.mem_nodes_of_mem_dependencies hn hm) t
  constructor
  · intro h
    refine h.of_dependencies fun m hm t ↦ ?_
    rw [part.dependencies_eq hn] at hm
    exact (same hm t).1
  · exact fun h ↦ h.of_dependencies fun m hm t ↦ (same hm t).2

/-! ## Reports -/

variable {r r' : Report} (exact : r.Exact p env) (exact' : r'.Exact q env')
include exact exact'

/-- The errors of the part are the errors of the whole that are about its nodes, in their order. -/
theorem errors_eq (wf' : q.WellFormed) :
    r.errors = r'.errors.filter fun e ↦ e.node ∈ p.nodes.map Node.id := by
  refine eq_of_sourceOrder TypeError.span exact.sorted (exact'.sorted.filter _) fun e ↦ ?_
  rw [List.mem_filter, decide_eq_true_iff, exact.mem_errors_iff, exact'.mem_errors_iff]
  constructor
  · rintro ⟨n, hn, faulty, report⟩
    refine ⟨⟨n, part.nodes hn, ?_, ?_⟩, ?_⟩
    · exact (part.faulty_iff wf hn).2 faulty
    · exact (part.reports_iff wf hn).2 report
    · exact report.node_eq ▸ List.mem_map_of_mem hn
  · rintro ⟨⟨n, hn', faulty, report⟩, about⟩
    obtain ⟨m, hn, same⟩ := List.mem_map.1 about
    obtain rfl := wf'.eq_of_id_eq (part.nodes hn) hn' (same.trans report.node_eq)
    exact ⟨m, hn, (part.faulty_iff wf hn).1 faulty, (part.reports_iff wf hn).1 report⟩

/-- The type of a node of the part is recorded, or is missing, in both reports. -/
theorem get?_nodeTypes_eq {n : Node} (hn : n ∈ p.nodes) :
    r.nodeTypes.get? n.id = r'.nodeTypes.get? n.id := by
  refine Option.ext fun t ↦ ?_
  rw [exact.types n hn, exact'.types n (part.nodes hn), part.hasType_iff wf hn]

/-- A part that has all nodes of the whole has its errors. -/
theorem errors_eq_of_nodes_eq (wf' : q.WellFormed) (nodes : q.nodes = p.nodes) :
    r'.errors = r.errors := by
  rw [part.errors_eq wf exact exact' wf', List.filter_eq_self.2 fun e he ↦ ?_]
  obtain ⟨n, hn, -, named⟩ := exact'.justified e he
  rw [decide_eq_true_iff, named, ← nodes]
  exact List.mem_map_of_mem hn

/-- A part that has all nodes of the whole passes its check if and only if the whole does. -/
theorem success_eq_of_nodes_eq (wf' : q.WellFormed) (nodes : q.nodes = p.nodes) :
    r'.success = r.success := by
  rw [Bool.eq_iff_iff, exact'.success, exact.success,
    part.errors_eq_of_nodes_eq wf exact exact' wf' nodes]

/-- A part that has all nodes of the whole has their types. -/
theorem nodeTypes_eq_of_nodes_eq (nodes : q.nodes = p.nodes) : r'.nodeTypes = r.nodeTypes := by
  refine SortedMap.eq_of_get?_eq fun i ↦ ?_
  by_cases known : ∃ n ∈ p.nodes, n.id = i
  · obtain ⟨n, hn, rfl⟩ := known
    exact (part.get?_nodeTypes_eq wf exact exact' hn).symm
  · have missing : r.nodeTypes.get? i = none :=
      Option.eq_none_iff_forall_ne_some.2 fun t found ↦ known (exact.keys i t found)
    have missing' : r'.nodeTypes.get? i = none :=
      Option.eq_none_iff_forall_ne_some.2 fun t found ↦ known (nodes ▸ exact'.keys i t found)
    rw [missing, missing']

end PartOf

end Program

end Taskflow
