import Taskflow.Proofs.Run.Blame
import Taskflow.Proofs.Typing.Soundness
import Taskflow.Proofs.Workflow.Dispatch

/-!
# Placeholders

A placeholder says nothing of itself that contradicts the type that it is made for
(`Val.conforms_placeholder`): a variable admits everything, of a function nothing is said, and a side
of a product about which nothing is said counts as anything.  So the simulated executor keeps the
promises of every environment, with type variables or without (`Executor.conforms_simulated`).

A literal that names a task has the type that the task is declared with, so an executor that keeps
the promises of the environment contradicts no such literal.  What a run finds at all it finds at
functor names, whose types are inferred (`run_blames_functors`, `placeholders_conform`).
-/

namespace Taskflow

/-! ## Executors that keep their promises -/

/-- A placeholder conforms to its type, whatever it is made from. -/
theorem Val.conforms_placeholder (task : String) (input : Val) (t : Ty) :
    (placeholder task input t).Conforms t := by
  induction t with
  | unit =>
    rintro a ⟨⟩
    rfl
  | mono name =>
    rintro a ⟨⟩
    exact Ty.compatible_self _
  | prod left right ihLeft ihRight => exact ihLeft.pair ihRight
  | var =>
    intro a _
    rfl
  | fn => rintro a ⟨⟩

/-- Simulated tasks keep the promises of the environment that they are made from. -/
theorem Executor.conforms_simulated (env : Environment) (latency : Nat) :
    (simulated env latency).Conforms env := by
  intro task t declared input s v yields
  simp only [simulated, declared] at yields
  cases yields
  exact Val.conforms_placeholder task input t.arrow.2

/-- A limit on the time of calls breaks no promise: what is cut short yields nothing. -/
theorem RunOptions.conforms_limited {σ : Type} (options : RunOptions) {e : Executor σ}
    {env : Environment} (keeps : e.Conforms env) : (options.limited e).Conforms env := by
  intro task t declared input s v yields
  refine keeps task t declared input s v ?_
  unfold limited Executor.within at yields
  split at yields
  · dsimp only at yields
    split at yields
    · exact yields
    · cases yields
  · exact yields

/-! ## Literals of tasks -/

namespace Program

variable {σ : Type} {p : Program} {env : Environment} {g : Guard} {e : Executor σ}
  (recorded : ∀ n ∈ p.nodes, ∀ t, g.nodeTypes.get? n.id = some t ↔ p.HasType env n t)
  (keeps : e.Conforms env)
include recorded keeps

/-- What a task yields that keeps its promise contradicts none of its literals. -/
theorem violation?_eq_none_of_task {id : NodeId} {name : String} {span : Span}
    (mem : .literal id name span ∈ p.nodes) (none : p.functorBody name = none) {input : Val} {s : σ}
    {v : Val} (yields : (e.respond name input s).1.result = .ok v) :
    g.violation? ⟨id, name, span⟩ v = Option.none := by
  cases found : g.nodeTypes.get? id with
  | none => simp [Guard.violation?, found]
  | some u =>
    obtain ⟨t, declared, rfl⟩ := (hasType_task_iff none).1 ((recorded _ mem u).1 found)
    have promises : Site.Promises g.nodeTypes ⟨id, name, span⟩ t.arrow.2 := ⟨_, found, rfl⟩
    exact Guard.violation?_eq_none promises (keeps name t declared input s v yields)

/-- The plan of a node lets only functor names be blamed. -/
theorem Resolves.blamesOnly (wf : p.WellFormed) {n : Node} {plan : Plan} (h : p.Resolves n plan)
    (mem : n ∈ p.nodes) : plan.BlamesOnly g e fun site ↦ p.isFunctor site.name = true := by
  induction h with
  | task none =>
    exact fun input s v yields ↦ violation?_eq_none_of_task recorded keeps mem none yields
  | @named id name span body plan stands _ ih =>
    have functor : p.isFunctor name = true := by
      rw [wf.isFunctor_eq, stands]
      rfl
    exact ⟨functor, ih (wf.body_mem_nodes mem stands)⟩
  | composition _ _ ihOuter ihInner =>
    exact ⟨ihOuter (wf.operands_mem_nodes mem).1, ihInner (wf.operands_mem_nodes mem).2⟩
  | product _ _ ihLeft ihRight =>
    exact ⟨ihLeft (wf.branches_mem_nodes mem).1, ihRight (wf.branches_mem_nodes mem).2⟩
  | functor _ ih => exact ih (wf.declared_mem_nodes mem)

/-- If all tasks keep their promises then a guarded run finds violations at functor names alone. -/
theorem WellFormed.run_blames_functors (wf : p.WellFormed) (policy : Policy) (input : Val) (s : σ)
    (clock : Nat) (cancelAfter : Option Nat) :
    let r := (Machine.mk e g.observer policy).run p.plan input s [] clock cancelAfter
    (∀ found, r.1 = .error (.violation found) → p.isFunctor found.site.name = true) ∧
      ∀ found ∈ r.2.observer, p.isFunctor found.site.name = true := by
  have blames := wf.resolves_root.blamesOnly recorded keeps wf p.root_mem_nodes
  exact Machine.run_blames (m := ⟨e, g.observer, policy⟩) rfl blames input s clock cancelAfter

end Program

/-- A placeholder conforms to its type, whatever type that is and whatever it is made from.  So no
answer of a simulated task is a violation at a literal of the task, in any environment that the
program is checked in, whether or not it passes its check; and all violations that a guarded run with
simulated tasks fails for or keeps are at functor names. -/
theorem placeholders_conform :
    (∀ t task input, (Val.placeholder task input t).Conforms t) ∧
    ∀ {text : String} {p : Program}, Program.parse text = .ok p →
      ∀ (rules : List LintRule) (base : Environment) (latency : Nat) (options : RunOptions),
      let simulated := Executor.simulated (p.environment base) latency
      let guard : Guard := ⟨(p.checkWith rules base).nodeTypes, options.strict⟩
      (∀ id name span, .literal id name span ∈ p.nodes → p.isFunctor name = false →
        ∀ input v, (simulated.respond name input ()).1.result = .ok v →
          guard.violation? ⟨id, name, span⟩ v = none) ∧
      ∀ input clock cancelAfter,
        let m : Machine Unit _ := ⟨options.limited simulated, guard.observer, options.policy⟩
        let r := m.run p.plan input () [] clock cancelAfter
        (∀ found, r.1 = .error (.violation found) → p.isFunctor found.site.name = true) ∧
          ∀ found ∈ r.2.observer, p.isFunctor found.site.name = true := by
  refine ⟨fun t task input ↦ Val.conforms_placeholder task input t, ?_⟩
  intro text p parsed rules base latency options simulated guard
  have wf := Program.wellFormed_of_parse parsed
  have recorded := (wf.exact_checkWith rules base).types
  have keeps := Executor.conforms_simulated (p.environment base) latency
  constructor
  · intro id name span mem task input v yields
    have none : p.functorBody name = none := by
      rwa [wf.isFunctor_eq, Option.isSome_eq_false_iff, Option.isNone_iff_eq_none] at task
    exact Program.violation?_eq_none_of_task recorded keeps mem none yields
  · intro input clock cancelAfter
    have keeps' := options.conforms_limited keeps
    exact wf.run_blames_functors recorded keeps' options.policy input () clock cancelAfter

/-- A functor that is contradicted by what its tasks yield, which contradicts none of them. -/
theorem placeholders_conform_of_contradicted_functor :
    let source := "g :: () -> Q × Q\nt :: (a × a) -> a\nf = t ∘ g\nf"
    ∃ p, Program.parse source = .ok p ∧
      (let simulated := Executor.simulated (p.environment .empty) 3
       let guard : Guard := ⟨(p.check .empty).nodeTypes, false⟩
       let m : Machine Unit _ := ⟨simulated.within 5, guard.observer, .waitAll⟩
       let r := m.run p.plan .unit () [] 0 none
       (∀ id name span, .literal id name span ∈ p.nodes → p.isFunctor name = false →
          ∀ input v, (simulated.respond name input ()).1.result = .ok v →
            guard.violation? ⟨id, name, span⟩ v = none) ∧
        r.2.observer.map (·.site.name) = ["f"] ∧
        ∀ found ∈ r.2.observer, p.isFunctor found.site.name = true) := by
  intro source
  have parsed := Except.eq_ok_get (x := Program.parse source) (by decide)
  obtain ⟨tasks, functors⟩ := placeholders_conform.2 parsed LintRule.all .empty 3
    ⟨true, false, .waitAll, some 5⟩
  exact ⟨_, parsed, tasks, by decide +kernel, (functors .unit 0 none).2⟩

end Taskflow
