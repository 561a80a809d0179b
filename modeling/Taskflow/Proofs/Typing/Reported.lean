import Taskflow.Proofs.Grammar.Ids
import Taskflow.Proofs.SortedMap
import Taskflow.Proofs.Typing.Exactness

/-!
# The environment of a report

The report of a program that passes its check comes with an environment, in which each functor is
declared like a task, with the type of its body.  Nothing else of the program is needed to check any
of its expressions once more: the root, or the body of a functor, as a program of its own that
declares nothing, has in that environment the type that it has in the program, and so has everything
below it (`check_in_reported_environment`).

In one check a functor name has the type that was inferred for the body, in the other one the type
that is declared, read as a function.  These are the same because every inferred type is a function
(`Program.hasType_only_iff`).
-/

namespace Taskflow

namespace Program

variable {p : Program} {env env' : Environment}

/-- The program with the root `n` that declares nothing. -/
def only (p : Program) (n : Node) : Program := { p with signatures := [], functors := [], root := n }

/-- What stands below a node of a program follows each other in that program. -/
theorem all_sublist_nodes {n : Node} (hn : n ∈ p.nodes) : n.all.Sublist p.nodes := by
  rw [nodes, List.mem_append, List.mem_flatMap] at hn
  rcases hn with ⟨f, hf, below⟩ | below
  · obtain ⟨before, after, split⟩ := List.append_of_mem hf
    have inside : f.2.all.Sublist (p.functors.flatMap (·.2.all)) := by
      rw [split, List.flatMap_append, List.flatMap_cons]
      exact (List.sublist_append_left ..).trans (List.sublist_append_right ..)
    exact ((Node.all_sublist_of_mem below).trans inside).trans (List.sublist_append_left ..)
  · exact (Node.all_sublist_of_mem below).trans (List.sublist_append_right ..)

/-- An expression of a well-formed program is a well-formed program by itself. -/
theorem WellFormed.only (wf : p.WellFormed) {n : Node} (hn : n ∈ p.nodes) (expr : n.IsExpr) :
    (p.only n).WellFormed where
  entry _ hf := (List.not_mem_nil hf).elim
  root := expr
  distinct := .nil
  backward := .nil
  irreflexive _ hf := (List.not_mem_nil hf).elim
  ids := wf.ids.sublist ((all_sublist_nodes hn).map _)
  extents := wf.extents.sublist (((all_sublist_nodes hn).filter _).map _)

/-- Whether `env'` declares every functor of a program with the type that its body has in `env`, and
everything else as `env` does. -/
structure Declares (p : Program) (env env' : Environment) : Prop where
  functor : ∀ name body, p.functorBody name = some body →
    ∀ t, env'.get? name = some t ↔ p.HasType env body t
  task : ∀ name, p.functorBody name = none → env'.get? name = env.get? name

/-- An expression has by itself the type that it has in the program if the functors of the program
are declared: by induction on the expression, without following names. -/
theorem hasType_only_iff (declares : p.Declares env env') {n : Node} (expr : n.IsExpr)
    (root : Node) {t : Ty} : (p.only root).HasType env' n t ↔ p.HasType env n t := by
  induction n generalizing t with
  | literal id name span =>
    rw [hasType_task_iff rfl]
    cases stands : p.functorBody name with
    | none => rw [hasType_task_iff stands, declares.task name stands]
    | some body =>
      rw [hasType_named_iff stands]
      simp only [declares.functor name body stands]
      constructor
      · rintro ⟨u, typed, rfl⟩
        obtain ⟨a, b, rfl⟩ := typed.isFn
        exact typed
      · intro typed
        obtain ⟨a, b, rfl⟩ := typed.isFn
        exact ⟨_, typed, rfl⟩
  | composition id outer inner span ihOuter ihInner =>
    simp only [hasType_composition_iff, ihOuter expr.1, ihInner expr.2]
  | product id left right span ihLeft ihRight =>
    simp only [hasType_product_iff, ihLeft expr.1, ihRight expr.2]
  | functor => exact expr.elim

/-- The environment of a successful report declares the functors of the program. -/
theorem WellFormed.exists_environment_checkWith (wf : p.WellFormed) {rules : List LintRule}
    {base : Environment} (success : (p.checkWith rules base).success = true) :
    ∃ env, (p.checkWith rules base).environment = some env ∧
      p.Declares (p.environment base) env := by
  have functors := (p.infer_covers wf (p.environment base)).2.2
  refine ⟨(p.environment base).merge (p.infer (p.environment base)).2.functorTypes, ?_, ?_, ?_⟩
  · exact if_pos success
  · intro name body stands t
    have same := wf.environment_checkWith_iff rules base stands t
    rwa [show (p.checkWith rules base).environment = _ from if_pos success, Option.bind_some,
      and_iff_right success] at same
  · intro name none
    have absent : (p.infer (p.environment base)).2.functorTypes.get? name = Option.none := by
      refine Option.eq_none_iff_forall_ne_some.2 fun t found ↦ ?_
      obtain ⟨-, body, stands, -⟩ := (functors name t).1 found
      cases none.symm.trans stands
    rw [SortedMap.get?_merge, absent, Option.none_or]

end Program

/-- Whether the successful report `r'` says of the expression `n` and of what is below it what the
report `r` says of them, and nothing of anything else. -/
structure Report.Repeats (r' r : Report) (n : Node) : Prop where
  success : r'.success = true
  /-- the program is of the type that the expression has in `r` -/
  type : ∃ t, r.nodeTypes.get? n.id = some t ∧ r'.programType = some t
  types : ∀ m ∈ n.all, ∃ t, r.nodeTypes.get? m.id = some t ∧ r'.nodeTypes.get? m.id = some t
  nothingElse : ∀ i t, r'.nodeTypes.get? i = some t → ∃ m ∈ n.all, m.id = i
  /-- the environment has all that there is to know -/
  environment : r'.environment = r.environment

/-- The report on an expression of a program in the environment of the program's own report repeats
what that one says. -/
theorem Program.WellFormed.repeats_only {p : Program} (wf : p.WellFormed) {rules : List LintRule}
    {base env : Environment} (success : (p.checkWith rules base).success = true)
    (reported : (p.checkWith rules base).environment = some env)
    (declares : p.Declares (p.environment base) env) {n : Node} (hn : n ∈ p.nodes)
    (expr : n.IsExpr) (rules' : List LintRule) :
    ((p.only n).checkWith rules' env).Repeats (p.checkWith rules base) n := by
  have wf' := wf.only hn expr
  have report := wf.exact_checkWith rules base
  have report' := wf'.exact_checkWith rules' env
  have typed : ∀ m ∈ n.all, ∃ t, p.HasType (p.environment base) m t ∧
      (p.only n).HasType env m t := by
    intro m hm
    obtain ⟨t, typed⟩ := report.success_iff.1 success m ((all_sublist_nodes hn).subset hm)
    exact ⟨t, typed, (hasType_only_iff declares (expr.of_mem hm) n).2 typed⟩
  have success' : ((p.only n).checkWith rules' env).success = true := by
    refine report'.success_iff.2 fun m hm ↦ ?_
    obtain ⟨t, -, typed⟩ := typed m hm
    exact ⟨t, typed⟩
  constructor
  · exact success'
  · obtain ⟨t, typed, typed'⟩ := typed n n.mem_all_self
    exact ⟨t, (report.types n hn t).2 typed, (wf'.programType_checkWith success' t).2 typed'⟩
  · intro m hm
    obtain ⟨t, typed, typed'⟩ := typed m hm
    exact ⟨t, (report.types m ((all_sublist_nodes hn).subset hm) t).2 typed,
      (report'.types m hm t).2 typed'⟩
  · exact report'.keys
  · -- there are no functors to add
    obtain ⟨env', reported', declares'⟩ := wf'.exists_environment_checkWith success'
    have same : env' = env := SortedMap.eq_of_get?_eq fun name ↦ declares'.task name rfl
    rw [reported', reported, same]

/-- The environment of a report is all that is needed to check the program once more.  If a parsed
program passes its check then every type in the report is a function type.  The root of the program
passes in the environment of the report as a program that declares nothing, with the type of the
program, and everything below it has the type that it had; and so does the body of each functor, with
the type under which that environment has the functor. -/
theorem check_in_reported_environment {p : Program} {text : String}
    (parsed : Program.parse text = .ok p) {rules : List LintRule} {base : Environment}
    (success : (p.checkWith rules base).success = true) (rules' : List LintRule) :
    let r := p.checkWith rules base
    (∀ e ∈ r.nodeTypes.entries, ∃ a b, e.2 = .fn a b) ∧
    ∃ env, r.environment = some env ∧
      (let r' := (p.only p.root).checkWith rules' env
       r'.Repeats r p.root ∧ r'.programType = r.programType) ∧
      ∀ name body, p.functorBody name = some body →
        let r' := (p.only body).checkWith rules' env
        r'.Repeats r body ∧ r'.programType = env.get? name := by
  intro r
  have wf := Program.wellFormed_of_parse parsed
  have report := wf.exact_checkWith rules base
  obtain ⟨env, reported, declares⟩ := wf.exists_environment_checkWith success
  constructor
  · rintro ⟨i, t⟩ mem
    have found : r.nodeTypes.get? i = some t := lookup_eq_some_of_mem r.nodeTypes.nodup_keys mem
    obtain ⟨n, hn, rfl⟩ := report.keys i t found
    exact ((report.types n hn t).1 found).isFn
  · have again {n : Node} (hn : n ∈ p.nodes) (expr : n.IsExpr) :=
      wf.repeats_only success reported declares hn expr rules'
    refine ⟨env, reported, ?_, fun name body stands ↦ ?_⟩
    · have root := again p.root_mem_nodes wf.root
      obtain ⟨t, known, type⟩ := root.type
      have typed := (report.types p.root p.root_mem_nodes t).1 known
      exact ⟨root, type.trans ((wf.programType_checkWith success t).2 typed).symm⟩
    · have hn := wf.functorBody_mem_nodes stands
      have own := again hn (wf.isExpr_functorBody stands)
      obtain ⟨t, known, type⟩ := own.type
      have typed := (report.types body hn t).1 known
      exact ⟨own, type.trans ((declares.functor name body stands t).2 typed).symm⟩

/-- A functor that hides a task of its name, and one that refers to it twice. -/
theorem check_in_reported_environment_of_nested_functors :
    let source := "f :: Z\na :: b -> (b × X)\nc :: (Y × X) -> Q\nf = a\ng = f ∘ f\nc ∘ f"
    ∃ p, Program.parse source = .ok p ∧ (p.check .empty).success = true ∧
      (p.isFunctor "f" && p.isFunctor "g") = true ∧
      ∃ env, (p.check .empty).environment = some env ∧
        (let r' := (p.only p.root).check env
         r'.Repeats (p.check .empty) p.root ∧ r'.programType = (p.check .empty).programType) ∧
        ∀ name body, p.functorBody name = some body →
          ((p.only body).check env).Repeats (p.check .empty) body ∧
            ((p.only body).check env).programType = env.get? name := by
  intro source
  obtain ⟨p, parsed, success, functors⟩ : ∃ p, Program.parse source = .ok p ∧
      (p.check .empty).success = true ∧ (p.isFunctor "f" && p.isFunctor "g") = true :=
    ⟨_, Except.eq_ok_get (by decide), by decide +kernel, by decide +kernel⟩
  have again := (check_in_reported_environment parsed success LintRule.all).2
  exact ⟨p, parsed, success, functors, again⟩

end Taskflow
