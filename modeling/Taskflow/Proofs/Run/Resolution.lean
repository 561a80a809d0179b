import Taskflow.Proofs.Program.Structure
import Taskflow.Run.Plan

/-!
# Resolving names

`Program.Resolves` relates a node to its plan, following a functor name to the body that it stands
for.  The plan of a program resolves its root (`WellFormed.resolves_root`): a functor refers to
functors before it alone, so the table of plans has all that resolving its body asks for.
-/

namespace Taskflow

namespace Program

/-- What each name below a node stands for. -/
inductive Resolves (p : Program) : Node → Plan → Prop
  | task {id name span} :
    p.functorBody name = none → Resolves p (.literal id name span) (.task ⟨id, name, span⟩)
  | named {id name span body plan} :
    p.functorBody name = some body → Resolves p body plan →
      Resolves p (.literal id name span) (.named ⟨id, name, span⟩ plan)
  | composition {id outer inner span outerPlan innerPlan} :
    Resolves p outer outerPlan → Resolves p inner innerPlan →
      Resolves p (.composition id outer inner span) (.seq outerPlan innerPlan)
  | product {id left right span leftPlan rightPlan} :
    Resolves p left leftPlan → Resolves p right rightPlan →
      Resolves p (.product id left right span) (.par leftPlan rightPlan)
  | functor {id name body span plan} :
    Resolves p body plan → Resolves p (.functor id name body span) plan

variable {p : Program}

/-- A table of plans is right about a functor name if it has a plan that resolves the body. -/
def RightAbout (p : Program) (known : Table Plan) (name : String) : Prop :=
  ∀ body, p.functorBody name = some body → ∃ plan, known.lookup name = some plan ∧
    p.Resolves body plan

/-- A table that is right about all names below a node, and has plans of functors alone, resolves
the node. -/
theorem resolves_ofNode {known : Table Plan} {n : Node}
    (right : ∀ name ∈ n.references, p.RightAbout known name)
    (functors : ∀ name, p.functorBody name = none → known.lookup name = none) :
    p.Resolves n (.ofNode known n) := by
  induction n with
  | literal id name span =>
    rw [Plan.ofNode]
    cases stands : p.functorBody name with
    | none =>
      rw [functors name stands]
      exact .task stands
    | some body =>
      obtain ⟨plan, found, resolves⟩ := right name (by simp [Node.references]) body stands
      rw [found]
      exact .named stands resolves
  | composition id outer inner span ihOuter ihInner =>
    exact .composition (ihOuter fun x hx ↦ right x (List.mem_append_left _ hx))
      (ihInner fun x hx ↦ right x (List.mem_append_right _ hx))
  | product id left right' span ihLeft ihRight =>
    exact .product (ihLeft fun x hx ↦ right x (List.mem_append_left _ hx))
      (ihRight fun x hx ↦ right x (List.mem_append_right _ hx))
  | functor id name body span ih => exact .functor (ih right)

/-- What a table is right about it stays right about when it grows. -/
theorem RightAbout.append {known : Table Plan} {name : String} (right : p.RightAbout known name)
    (more : Table Plan) : p.RightAbout (known ++ more) name := by
  intro body stands
  obtain ⟨plan, found, resolves⟩ := right body stands
  exact ⟨plan, by simp [List.lookup_append, found], resolves⟩

/-- Resolving the rest of the functor table, once its beginning is resolved, resolves all of it. -/
theorem WellFormed.resolves_ofFunctors (wf : p.WellFormed) {before after : Table Node}
    {known : Table Plan} (split : p.functors = before ++ after)
    (right : ∀ name ∈ before.map (·.1), p.RightAbout known name)
    (names : known.map (·.1) = before.map (·.1)) :
    (∀ name ∈ p.functors.map (·.1), p.RightAbout (Plan.ofFunctors known after) name) ∧
      (Plan.ofFunctors known after).map (·.1) = p.functors.map (·.1) := by
  induction after generalizing before known with
  | nil =>
    rw [split, List.append_nil]
    exact ⟨right, names⟩
  | cons entry after ih =>
    have split' : p.functors = (before ++ [entry]) ++ after := by simp [split]
    have mem : entry ∈ p.functors := split ▸ List.mem_append_right _ List.mem_cons_self
    have distinct := wf.distinct
    rw [split, List.map_append, List.map_cons, List.nodup_append'] at distinct
    obtain ⟨name, node⟩ := entry
    obtain ⟨id, body, span, shape, -⟩ := wf.entry _ mem
    dsimp only at shape
    subst shape
    have stands : p.functorBody name = some body := wf.functorBody_eq_some_iff.2 ⟨id, span, mem⟩
    have resolves : p.Resolves body (.ofNode known body) := by
      refine resolves_ofNode (fun other ref other' stands' ↦ ?_) fun other none ↦ ?_
      · exact right other (wf.mem_before split ref (by simp [stands'])) other' stands'
      · refine lookup_eq_none_iff_notMem.2 fun mem ↦ ?_
        rw [names] at mem
        have : other ∈ p.functors.map (·.1) := by
          rw [split, List.map_append]
          exact List.mem_append_left _ mem
        simpa [none] using wf.isSome_functorBody_iff.2 this
    rw [Plan.ofFunctors]
    refine ih split' (fun other mem ↦ ?_) (by simp [names])
    rw [List.map_append, List.mem_append, List.map_singleton, List.mem_singleton] at mem
    rcases mem with mem | rfl
    · exact (right other mem).append _
    · intro body' stands'
      obtain rfl := Option.some.inj (stands.symm.trans stands')
      have absent : known.lookup other = none :=
        lookup_eq_none_iff_notMem.2 fun mem ↦ distinct.2.2 (names ▸ mem) List.mem_cons_self
      exact ⟨_, by simp [List.lookup_append, absent], resolves⟩

/-- The plan of any node of a program. -/
def planOf (p : Program) (n : Node) : Plan := .ofNode p.functorPlans n

/-- The plan of a node resolves it. -/
theorem WellFormed.resolves_planOf (wf : p.WellFormed) (n : Node) : p.Resolves n (p.planOf n) := by
  have nothing : ∀ name ∈ ([] : Table Node).map (·.1), p.RightAbout [] name := by simp
  obtain ⟨right, names⟩ := wf.resolves_ofFunctors (List.nil_append _).symm nothing rfl
  refine resolves_ofNode (fun name _ body stands ↦ ?_) fun name none ↦ ?_
  · exact right name (wf.isSome_functorBody_iff.1 (by simp [stands])) body stands
  · refine lookup_eq_none_iff_notMem.2 fun mem ↦ ?_
    have mem : name ∈ p.functors.map (·.1) := names ▸ mem
    simpa [none] using wf.isSome_functorBody_iff.2 mem

/-- The plan of a program resolves its root. -/
theorem WellFormed.resolves_root (wf : p.WellFormed) : p.Resolves p.root p.plan :=
  wf.resolves_planOf p.root

/-- A node resolves to one plan. -/
theorem Resolves.unique {n : Node} {plan plan' : Plan} (h : p.Resolves n plan)
    (h' : p.Resolves n plan') : plan = plan' := by
  induction h generalizing plan' with
  | task none =>
    cases h' with
    | task => rfl
    | named stands => cases none.symm.trans stands
  | named stands _ ih =>
    cases h' with
    | task none => cases none.symm.trans stands
    | named stands' body =>
      obtain rfl := Option.some.inj (stands.symm.trans stands')
      rw [ih body]
  | composition _ _ ihOuter ihInner =>
    cases h' with
    | composition outer inner => rw [ihOuter outer, ihInner inner]
  | product _ _ ihLeft ihRight =>
    cases h' with
    | product left right => rw [ihLeft left, ihRight right]
  | functor _ ih =>
    cases h' with
    | functor body => exact ih body

end Program

end Taskflow
