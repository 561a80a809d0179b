import Taskflow.Proofs.Run.Interchange
import Taskflow.Proofs.Typing.Locality
import Taskflow.Proofs.Workflow.Dispatch

/-!
# Declarations without effect

Two warnings are about declarations that could as well be missing.  A functor that no literal names
takes nothing with it but what is said of its own body (`unused_functor_is_dead`).  A signature is
consulted only where a literal has its name and no functor does, so all others can be declared
otherwise or not at all (`unconsulted_signatures_are_dead`); among them is every signature that a
functor shadows.
-/

namespace Taskflow

variable {p q : Program} {env env' : Environment}

/-! ## What lint rules find -/

namespace LintRule

/-- The names that the root and the bodies of functors refer to are those of literals. -/
theorem mem_referenced_iff (wf : p.WellFormed) {name : String} :
    name ∈ referenced p ↔ p.Mentions name := by
  have names : referenced p = p.root.references ++ p.functors.flatMap (·.2.references) := by
    refine congrArg _ (List.flatMap_congr fun f hf ↦ ?_)
    obtain ⟨_, _, _, shape, -⟩ := wf.entry f hf
    rw [shape]
    rfl
  rw [Program.mentions_iff, names, List.mem_append, List.mem_flatMap, or_comm]

theorem mem_warnings_iff {base : Environment} {w : Warning} : w ∈ (p.check base).warnings ↔
    w ∈ unusedFunctor.check p (p.environment base) ∨
      w ∈ shadowedTask.check p (p.environment base) := by
  simp [Program.check, Program.checkWith, all]

/-- A declaration is reported as unused if and only if no literal has its name. -/
theorem unused_mem_warnings_iff (wf : p.WellFormed) {name : String} {node : Node}
    (declared : (name, node) ∈ p.functors) (base : Environment) :
    ⟨node.span, s!"Functor '{name}' is declared but never used", "unused-functor"⟩ ∈
      (p.check base).warnings ↔ ¬ p.Mentions name := by
  rw [mem_warnings_iff, ← mem_referenced_iff wf]
  constructor
  · rintro (found | found)
    · obtain ⟨f, -, reported⟩ := List.mem_filterMap.1 found
      obtain ⟨idle, reported⟩ := Option.ite_none_left_eq_some.1 reported
      have message := congrArg Warning.message (Option.some.inj reported)
      have same : f.1 = name := by simpa [toString] using message
      exact same ▸ idle
    · obtain ⟨f, -, reported⟩ := List.mem_filterMap.1 found
      obtain ⟨t, -, reported⟩ := Option.map_eq_some_iff.1 reported
      have rule : "shadowed-task" = "unused-functor" := congrArg Warning.rule reported
      exact absurd rule (by decide)
  · intro idle
    exact .inl (List.mem_filterMap.2 ⟨_, declared, if_neg idle⟩)

/-- What is reported as shadowed is a signature of the environment that has the name of a
functor. -/
theorem exists_of_shadowed_mem_warnings (wf : p.WellFormed) {base : Environment} {w : Warning}
    (found : w ∈ (p.check base).warnings) (rule : w.rule = "shadowed-task") :
    ∃ name t, p.isFunctor name = true ∧ (p.environment base).get? name = some t ∧
      w.message = s!"Functor '{name}' shadows the task signature '{name} :: {t.render}'" := by
  rcases mem_warnings_iff.1 found with found | found
  · obtain ⟨f, -, reported⟩ := List.mem_filterMap.1 found
    obtain ⟨-, reported⟩ := Option.ite_none_left_eq_some.1 reported
    have rule : "unused-functor" = "shadowed-task" :=
      (congrArg Warning.rule (Option.some.inj reported)).trans rule
    exact absurd rule (by decide)
  · obtain ⟨f, hf, reported⟩ := List.mem_filterMap.1 found
    obtain ⟨t, signed, rfl⟩ := Option.map_eq_some_iff.1 reported
    refine ⟨f.1, t, ?_, signed, rfl⟩
    rw [wf.isFunctor_eq]
    exact wf.isSome_functorBody_iff.2 (List.mem_map_of_mem hf)

end LintRule

namespace Program

/-! ## Plans of a part -/

/-- A node of a part has the same plan in the whole. -/
theorem PartOf.resolves (part : p.PartOf env q env') (wf : p.WellFormed) {n : Node} {plan : Plan}
    (h : p.Resolves n plan) (hn : n ∈ p.nodes) : q.Resolves n plan := by
  induction h with
  | @task id name span none => exact .task ((part.bodies name ⟨id, span, hn⟩).trans none)
  | @named id name span _ _ stands _ ih =>
    exact .named ((part.bodies name ⟨id, span, hn⟩).trans stands) (ih (wf.body_mem_nodes hn stands))
  | composition _ _ ihOuter ihInner =>
    exact .composition (ihOuter (wf.operands_mem_nodes hn).1) (ihInner (wf.operands_mem_nodes hn).2)
  | product _ _ ihLeft ihRight =>
    exact .product (ihLeft (wf.branches_mem_nodes hn).1) (ihRight (wf.branches_mem_nodes hn).2)
  | functor _ ih => exact .functor (ih (wf.declared_mem_nodes hn))

/-- A part with the root of the whole has the plan of the whole. -/
theorem PartOf.plan_eq (part : p.PartOf env q env') (wf : p.WellFormed) (wf' : q.WellFormed)
    (root : p.root = q.root) : p.plan = q.plan := by
  have resolves := part.resolves wf wf.resolves_root p.root_mem_nodes
  rw [root] at resolves
  exact resolves.unique wf'.resolves_root

/-! ## Unused functors -/

/-- Without a functor that no literal names, a program is part of what it was. -/
theorem WellFormed.without_partOf (wf : p.WellFormed) {name : String} (idle : ¬ p.Mentions name)
    (env : Environment) : (p.without name).PartOf env p env where
  nodes := (p.sublist_nodes_without name).subset
  bodies other mentioned := by
    refine (wf.functorBody_without ?_).symm
    rintro rfl
    obtain ⟨id, span, mem⟩ := mentioned
    exact idle ⟨id, span, (p.sublist_nodes_without other).subset mem⟩
  tasks _ _ _ := rfl

/-- What is at fault is left without a functor if and only if it does not stand in the body. -/
theorem WellFormed.id_mem_nodes_without_iff (wf : p.WellFormed) {name : String} {id : NodeId}
    {body n : Node} {span : Span} (declared : (name, .functor id name body span) ∈ p.functors)
    (hn : n ∈ p.nodes) (faulty : p.Faulty env n) :
    n.id ∈ (p.without name).nodes.map Node.id ↔ n.id ∉ body.all.map Node.id := by
  have mem : .functor id name body span ∈ p.nodes :=
    List.mem_append_left _ (List.mem_flatMap.2 ⟨_, declared, Node.mem_all_self _⟩)
  -- a declaration has the type of its body or none, so the fault is not its own
  have differ : n.id ≠ id := by
    intro same
    obtain rfl := wf.eq_of_id_eq hn mem same
    exact not_faulty_functor faulty
  have left : n.id ∈ (p.without name).nodes.map Node.id ↔ n ∈ (p.without name).nodes := by
    refine ⟨fun h ↦ ?_, List.mem_map_of_mem⟩
    obtain ⟨m, hm, same⟩ := List.mem_map.1 h
    exact wf.eq_of_id_eq ((p.sublist_nodes_without name).subset hm) hn same ▸ hm
  rw [left, wf.mem_nodes_without_iff declared hn, Node.all, List.map_append, List.mem_append,
    List.map_singleton, List.mem_singleton]
  exact not_congr (or_iff_left differ)

/-- Without a functor that no literal names, the errors are the others, in their order. -/
theorem WellFormed.errors_without (wf : p.WellFormed) {name : String} (idle : ¬ p.Mentions name)
    {id : NodeId} {body : Node} {span : Span}
    (declared : (name, .functor id name body span) ∈ p.functors) (base : Environment) :
    ((p.without name).check base).errors =
      (p.check base).errors.filter fun e ↦ e.node ∉ body.all.map Node.id := by
  have part := wf.without_partOf idle (p.environment base)
  have exact := wf.exact_checkWith LintRule.all base
  have exact' := (wf.without name).exact_checkWith LintRule.all base
  refine (part.errors_eq (wf.without name) exact' exact wf).trans ?_
  refine List.filter_congr fun e he ↦ decide_eq_decide.2 ?_
  obtain ⟨n, hn, faulty, report⟩ := exact.reports he
  rw [report.node_eq]
  exact wf.id_mem_nodes_without_iff declared hn faulty

end Program

/-- A functor of a parsed program.  A check warns that it is not used if and only if no literal has
its name.  If so, the program without it has the same errors but for those at nodes of the body, in
the same order; every node that is left has the same type as before, or none as before; and every
run of the program is the same. -/
theorem unused_functor_is_dead {text : String} (parsed : Program.parse text = .ok p)
    {name : String} {id : NodeId} {body : Node} {span : Span}
    (declared : (name, .functor id name body span) ∈ p.functors) (base : Environment) :
    let warning : Warning :=
      ⟨span, s!"Functor '{name}' is declared but never used", "unused-functor"⟩
    let q := p.without name
    (warning ∈ (p.check base).warnings ↔ ¬ p.Mentions name) ∧
    (warning ∈ (p.check base).warnings →
      ((q.check base).errors =
        (p.check base).errors.filter fun e ↦ e.node ∉ body.all.map Node.id) ∧
      (∀ n ∈ q.nodes, (q.check base).nodeTypes.get? n.id = (p.check base).nodeTypes.get? n.id) ∧
      ∀ {σ ω : Type} (m : Machine σ ω) (input : Val) (s : σ) (o : ω) (clock : Nat)
        (cancelAfter : Option Nat),
        m.run q.plan input s o clock cancelAfter = m.run p.plan input s o clock cancelAfter) := by
  intro warning q
  have wf := Program.wellFormed_of_parse parsed
  have reported : warning ∈ (p.check base).warnings ↔ ¬ p.Mentions name :=
    LintRule.unused_mem_warnings_iff wf declared base
  refine ⟨reported, fun found ↦ ?_⟩
  have idle := reported.1 found
  have part := wf.without_partOf idle (p.environment base)
  have exact := wf.exact_checkWith LintRule.all base
  have exact' := (wf.without name).exact_checkWith LintRule.all base
  have plan : q.plan = p.plan := part.plan_eq (wf.without name) wf rfl
  refine ⟨wf.errors_without idle declared base, fun n hn ↦ ?_, ?_⟩
  · exact part.get?_nodeTypes_eq (wf.without name) exact' exact hn
  · intro σ ω m input s o clock cancelAfter
    rw [plan]

/-- A functor that shadows a task, refers to another functor and does not fit together, in a program
with a fault of its own. -/
theorem unused_functor_is_dead_of_shadowing :
    let base : Environment := .ofList [("a", .fn .unit (.mono "B"))]
    let m : Machine Unit Unit := ⟨.simulated base 5, .blind, .waitAll⟩
    ∃ p body, Program.parse "h :: A -> B\nf = a\nh = f ∘ f\nf × c" = .ok p ∧
      p.functorBody "h" = some body ∧
      (p.check base).errors.length = 2 ∧ ((p.without "h").check base).errors.length = 1 ∧
      ((p.without "h").check base).errors =
        (p.check base).errors.filter (fun e ↦ e.node ∉ body.all.map Node.id) ∧
      m.run (p.without "h").plan .unit () () 0 none = m.run p.plan .unit () () 0 none := by
  intro base m
  obtain ⟨p, parsed, declares, unnamed, faults, left⟩ : ∃ p,
      Program.parse "h :: A -> B\nf = a\nh = f ∘ f\nf × c" = .ok p ∧
      (p.functorBody "h").isSome ∧ "h" ∉ LintRule.referenced p ∧
      (p.infer (p.environment base)).2.errors.length = 2 ∧
      ((p.without "h").infer ((p.without "h").environment base)).2.errors.length = 1 :=
    ⟨_, Except.eq_ok_get (by decide), by decide, by decide, by decide, by decide⟩
  have wf := Program.wellFormed_of_parse parsed
  obtain ⟨body, stands⟩ := Option.isSome_iff_exists.1 declares
  obtain ⟨id, span, declared⟩ := wf.functorBody_eq_some_iff.1 stands
  obtain ⟨reported, dead⟩ := unused_functor_is_dead parsed declared base
  obtain ⟨errors, -, run⟩ := dead (reported.2 ((LintRule.mem_referenced_iff wf).not.1 unnamed))
  exact ⟨p, body, parsed, stands, (List.length_mergeSort _).trans faults,
    (List.length_mergeSort _).trans left, errors, run m _ _ _ _ _⟩

/-! ## Signatures without effect -/

namespace Program

/-- A program with other signatures. -/
def declaring (p : Program) (signatures : Table Signature) : Program := { p with signatures }

/-- Whether checking `q` against `base'` says the same as checking `p` against `base`, apart from
warnings and the environment, and simulated runs are the same. -/
structure Indistinct (p : Program) (base : Environment) (q : Program) (base' : Environment) :
    Prop where
  success : (q.check base').success = (p.check base).success
  errors : (q.check base').errors = (p.check base).errors
  nodeTypes : (q.check base').nodeTypes = (p.check base).nodeTypes
  programType : (q.check base').programType = (p.check base).programType
  run : ∀ latency policy input clock cancelAfter,
    let m (env : Environment) : Machine Unit Unit := ⟨.simulated env latency, .blind, policy⟩
    (m (q.environment base')).run q.plan input () () clock cancelAfter =
      (m (p.environment base)).run p.plan input () () clock cancelAfter

namespace WellFormed

variable (wf : p.WellFormed)
include wf

/-- Parsing promises nothing about signatures. -/
theorem declaring (signatures : Table Signature) : (p.declaring signatures).WellFormed :=
  ⟨wf.entry, wf.root, wf.distinct, wf.backward, wf.irreflexive, wf.ids, wf.extents⟩

/-- Simulated tasks of the same types answer alike. -/
theorem run_simulated_eq (same : ∀ name, p.Mentions name → p.functorBody name = none →
    env'.get? name = env.get? name) (latency : Nat) (policy : Policy) (input : Val) (clock : Nat)
    (cancelAfter : Option Nat) :
    Machine.run ⟨.simulated env' latency, .blind, policy⟩ p.plan input () () clock cancelAfter =
      Machine.run ⟨.simulated env latency, .blind, policy⟩ p.plan input () () clock
        cancelAfter := by
  let m : Machine Unit Unit := ⟨.simulated env latency, .blind, policy⟩
  have confined : p.plan.Confined fun name ↦ env'.get? name = env.get? name :=
    wf.resolves_root.confined wf p.root_mem_nodes same
  refine m.run_withExecutor (e := .simulated env' latency) ?_ confined input () () clock cancelAfter
  intro task same input s
  simp only [m, Executor.simulated, same]

/-- Programs with the same functors and the same root are not told apart if the tasks that they name
have the same types. -/
theorem indistinct (signatures : Table Signature) {base base' : Environment}
    (same : ∀ name, p.Mentions name → p.isFunctor name = false →
      ((p.declaring signatures).environment base').get? name =
        (p.environment base).get? name) :
    p.Indistinct base (p.declaring signatures) base' := by
  have wf' := wf.declaring signatures
  have tasks : ∀ name, p.Mentions name → p.functorBody name = none →
      ((p.declaring signatures).environment base').get? name =
        (p.environment base).get? name := by
    intro name mentioned free
    exact same name mentioned (by rw [wf.isFunctor_eq, free, Option.isSome_none])
  have part : p.PartOf (p.environment base) (p.declaring signatures)
      ((p.declaring signatures).environment base') :=
    ⟨List.Subset.refl _, fun _ _ ↦ rfl, tasks⟩
  have exact := wf.exact_checkWith LintRule.all base
  have exact' := wf'.exact_checkWith LintRule.all base'
  have success := part.success_eq_of_nodes_eq wf exact exact' wf' rfl
  refine ⟨success, part.errors_eq_of_nodes_eq wf exact exact' wf' rfl,
    part.nodeTypes_eq_of_nodes_eq wf exact exact' rfl, Option.ext fun t ↦ ?_,
    wf.run_simulated_eq tasks⟩
  refine (wf'.programType_checkWith_iff LintRule.all base' t).trans (Iff.trans ?_
    (wf.programType_checkWith_iff LintRule.all base t).symm)
  rw [success]
  exact and_congr_right' (part.hasType_iff wf p.root_mem_nodes t)

end WellFormed

end Program

/-- A parsed program and two environments that agree, once its signatures are added, on every name
that a literal has and no functor has: checks and simulated runs do not tell them apart.  In
particular, what is reported as shadowed is a signature that could be declared in any other way, or
not at all. -/
theorem unconsulted_signatures_are_dead {text : String} (parsed : Program.parse text = .ok p)
    (base : Environment) :
    (∀ base', (∀ name, p.Mentions name → p.isFunctor name = false →
        (p.environment base').get? name = (p.environment base).get? name) →
      p.Indistinct base p base') ∧
    ∀ w ∈ (p.check base).warnings, w.rule = "shadowed-task" →
      ∃ name t, p.isFunctor name = true ∧ (p.environment base).get? name = some t ∧
        w.message = s!"Functor '{name}' shadows the task signature '{name} :: {t.render}'" ∧
        ∀ signatures base',
          (∀ other, other ≠ name → ((p.declaring signatures).environment base').get? other =
            (p.environment base).get? other) →
          p.Indistinct base (p.declaring signatures) base' := by
  have wf := Program.wellFormed_of_parse parsed
  refine ⟨fun base' same ↦ wf.indistinct p.signatures same, fun w found rule ↦ ?_⟩
  obtain ⟨name, t, isFunctor, signed, message⟩ :=
    LintRule.exists_of_shadowed_mem_warnings wf found rule
  refine ⟨name, t, isFunctor, signed, message, fun signatures base' same ↦ ?_⟩
  refine wf.indistinct signatures fun other _ isTask ↦ same other ?_
  rintro rfl
  cases isFunctor.symm.trans isTask

/-- A task that a functor shadows, declared in any way. -/
theorem unconsulted_signatures_are_dead_of_shadowed :
    let base : Environment := .ofList [("f", .fn (.mono "A") (.mono "B"))]
    ∃ p, Program.parse "g :: () -> C\nf = g\nf × g" = .ok p ∧ (p.check base).success = true ∧
      p.Indistinct base p (.ofList [("g", .unit), ("k", .unit)]) ∧
      ∀ t, p.Indistinct base p (base.insert "f" t) := by
  intro base
  let base' : Environment := .ofList [("g", .unit), ("k", .unit)]
  obtain ⟨p, parsed, success, same, names, w, found, rule⟩ : ∃ p,
      Program.parse "g :: () -> C\nf = g\nf × g" = .ok p ∧ (p.check base).success = true ∧
      (∀ name ∈ LintRule.referenced p, p.isFunctor name = false →
        (p.environment base').get? name = (p.environment base).get? name) ∧
      p.functors.map (·.1) = ["f"] ∧ ∃ w ∈ (p.check base).warnings, w.rule = "shadowed-task" :=
    ⟨_, Except.eq_ok_get (by decide), by decide, by decide, by decide, by decide⟩
  have wf := Program.wellFormed_of_parse parsed
  obtain ⟨agree, shadowed⟩ := unconsulted_signatures_are_dead parsed base
  refine ⟨p, parsed, success, agree base' fun name mentioned ↦ ?_, fun t ↦ ?_⟩
  · exact same name ((LintRule.mem_referenced_iff wf).2 mentioned)
  · obtain ⟨name, -, isFunctor, -, -, unread⟩ := shadowed w found rule
    refine unread p.signatures (base.insert "f" t) fun other differ ↦ ?_
    rw [wf.isFunctor_eq, wf.isSome_functorBody_iff, names, List.mem_singleton] at isFunctor
    subst isFunctor
    rw [Program.declaring, Program.environment, SortedMap.get?_merge, SortedMap.get?_insert,
      if_neg differ]
    exact (SortedMap.get?_merge _ _ _).symm

end Taskflow
