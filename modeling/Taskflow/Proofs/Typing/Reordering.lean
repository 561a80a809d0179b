import Taskflow.Proofs.Program.Reordering
import Taskflow.Proofs.Typing.Warnings

/-!
# Checking does not look at the order of declarations

Inference visits functors in the order of their table and records what it finds as it goes.  What it
has found in the end is said by the typing rules, and they look names up.  So each part of a report
is determined by the program without ids and places, in whatever order its declarations are: types
are those of the rules, and an error is there as often as there are nodes at fault that it can be
about (`Findings.Covers.count_errors`).
-/

namespace Taskflow

/-- An error without the id and the place of its node. -/
def TypeError.bare (e : TypeError) : TypeError := { e with node := 0, span := .nowhere }

/-- A warning without its place. -/
def Warning.bare (w : Warning) : Warning := { w with span := .nowhere }

/-- Whether two reports say the same, up to ids and places and in any order. -/
structure Report.Agrees (r r' : Report) : Prop where
  success : r.success = r'.success
  errors : (r.errors.map TypeError.bare).Perm (r'.errors.map TypeError.bare)
  warnings : (r.warnings.map Warning.bare).Perm (r'.warnings.map Warning.bare)
  programType : r.programType = r'.programType
  environment : r.environment = r'.environment

namespace TypeError

variable (n m k : Node)

theorem bare_unbound (name : String) : (unbound n name).bare = unbound n.bare name := by
  cases n <;> simp [unbound, bare, Node.bare, Node.render, Node.id, Node.span]

theorem bare_composition (t u : Ty) :
    (composition n m k t u).bare = composition n.bare m.bare k.bare t u := by
  cases n <;> simp [composition, bare, Node.bare, Node.render, Node.id, Node.span]

theorem bare_product (t u : Ty) :
    (product n m k t u).bare = product n.bare m.bare k.bare t u := by
  cases n <;> simp [product, bare, Node.bare, Node.render, Node.id, Node.span]

end TypeError

/-! ## Faults without ids and places -/

namespace Program

section

variable {p d : Program} {env : Environment}
  (bodies : ∀ name, d.functorBody name = (p.functorBody name).map Node.bare)
include bodies

theorem typed_iff_of_bodies {n : Node} : d.Typed env n.bare ↔ p.Typed env n :=
  exists_congr fun _ ↦ hasType_iff_of_bodies bodies

theorem dependencies_of_bodies (n : Node) :
    n.bare.dependencies d.functorBody = (n.dependencies p.functorBody).map Node.bare := by
  cases n with
  | literal id name span =>
    rw [Node.bare, Node.dependencies, Node.dependencies, bodies]
    cases p.functorBody name <;> rfl
  | _ => rfl

theorem faulty_iff_of_bodies {n : Node} : d.Faulty env n.bare ↔ p.Faulty env n := by
  rw [Faulty, Faulty, dependencies_of_bodies bodies, typed_iff_of_bodies bodies,
    List.forall_mem_map]
  simp only [typed_iff_of_bodies bodies]

/-- What is said of a node at fault is said of it without ids and places. -/
theorem reports_iff_of_bodies {n : Node} {x : TypeError} :
    d.Reports env n.bare x ↔ ∃ e, p.Reports env n e ∧ e.bare = x := by
  constructor
  · intro h
    generalize bare : n.bare = m at h
    cases h with
    | unbound =>
      cases n with
      | literal =>
        cases bare
        exact ⟨_, .unbound, TypeError.bare_unbound ..⟩
      | _ => cases bare
    | composition hInner hOuter =>
      cases n with
      | composition =>
        cases bare
        exact ⟨_, .composition ((hasType_iff_of_bodies bodies).1 hInner)
          ((hasType_iff_of_bodies bodies).1 hOuter), TypeError.bare_composition ..⟩
      | _ => cases bare
    | product hLeft hRight =>
      cases n with
      | product =>
        cases bare
        exact ⟨_, .product ((hasType_iff_of_bodies bodies).1 hLeft)
          ((hasType_iff_of_bodies bodies).1 hRight), TypeError.bare_product ..⟩
      | _ => cases bare
  · rintro ⟨e, h, rfl⟩
    cases h with
    | unbound =>
      rw [TypeError.bare_unbound]
      exact .unbound
    | composition hInner hOuter =>
      rw [TypeError.bare_composition]
      exact .composition ((hasType_iff_of_bodies bodies).2 hInner)
        ((hasType_iff_of_bodies bodies).2 hOuter)
    | product hLeft hRight =>
      rw [TypeError.bare_product]
      exact .product ((hasType_iff_of_bodies bodies).2 hLeft)
        ((hasType_iff_of_bodies bodies).2 hRight)

end

end Program

/-! ## Findings without ids and places -/

section

variable {p d : Program} {env : Environment} {f : Findings} (wf : p.WellFormed)
  (bodies : ∀ name, d.functorBody name = (p.functorBody name).map Node.bare)
include wf bodies

open Classical in
/-- An error is found once for each node at fault of which it says what is to be said. -/
theorem Findings.Covers.count_errors (covers : f.Covers p env p.nodes) (x : TypeError) :
    (f.errors.map TypeError.bare).count x =
      (p.nodes.map Node.bare).countP fun n ↦ d.Faulty env n ∧ d.Reports env n x := by
  rw [List.count, List.countP_map, List.countP_map, List.countP_eq_length_filter,
    List.countP_eq_length_filter]
  -- errors and nodes are told apart by the same ids
  rw [← List.length_map TypeError.node, ← List.length_map Node.id]
  refine List.Perm.length_eq ((List.perm_ext_iff_of_nodup ?_ ?_).2 fun i ↦ ?_)
  · exact covers.nodup_node.sublist (List.filter_sublist.map _)
  · exact wf.ids.sublist (List.filter_sublist.map _)
  · rw [List.mem_map, List.mem_map]
    constructor
    · rintro ⟨e, mem, rfl⟩
      obtain ⟨he, same⟩ := List.mem_filter.1 mem
      obtain ⟨n, hn, faulty, report⟩ := covers.reports he
      have said := (Program.reports_iff_of_bodies bodies).2 ⟨e, report, eq_of_beq same⟩
      refine ⟨n, List.mem_filter.2 ⟨hn, ?_⟩, report.node_eq.symm⟩
      exact decide_eq_true ⟨(Program.faulty_iff_of_bodies bodies).2 faulty, said⟩
    · rintro ⟨n, mem, rfl⟩
      obtain ⟨hn, holds⟩ := List.mem_filter.1 mem
      obtain ⟨faulty, said⟩ := of_decide_eq_true holds
      obtain ⟨e, report, same⟩ := (Program.reports_iff_of_bodies bodies).1 said
      obtain ⟨e', only, report'⟩ :=
        covers.reported n hn ((Program.faulty_iff_of_bodies bodies).1 faulty)
      obtain rfl := report.unique report'
      have he : e ∈ f.errors.filter (·.node = n.id) := only ▸ List.mem_singleton.2 rfl
      refine ⟨e, List.mem_filter.2 ⟨(List.mem_filter.1 he).1, ?_⟩, report.node_eq⟩
      exact beq_iff_eq.2 same

/-- What is known of functors is what they are without ids and places. -/
theorem Program.WellFormed.get?_functorTypes_iff {name : String} {t : Ty} :
    (p.infer env).2.functorTypes.get? name = some t ↔
      ∃ body, d.functorBody name = some body ∧ d.HasType env body t := by
  rw [(p.infer_covers wf env).2.2 name t]
  constructor
  · rintro ⟨-, body, stands, typed⟩
    refine ⟨body.bare, ?_, (hasType_iff_of_bodies bodies).2 typed⟩
    rw [bodies, stands]
    rfl
  · rintro ⟨_, stands, typed⟩
    rw [bodies, Option.map_eq_some_iff] at stands
    obtain ⟨body, stands, rfl⟩ := stands
    refine ⟨wf.isSome_functorBody_iff.1 (by simp [stands]), body, stands, ?_⟩
    exact (hasType_iff_of_bodies bodies).1 typed

/-- A program passes if its nodes without ids and places have types. -/
theorem Program.WellFormed.success_iff_of_bodies (rules : List LintRule) (base : Environment) :
    (p.checkWith rules base).success = true ↔
      ∀ n ∈ p.nodes.map Node.bare, d.Typed (p.environment base) n := by
  rw [(wf.exact_checkWith rules base).success_iff, List.forall_mem_map]
  simp only [typed_iff_of_bodies bodies]

end

/-! ## Warnings -/

@[simp] theorem Node.span_bare (n : Node) : n.bare.span = .nowhere := by
  cases n <;> rfl

theorem Node.isDeclaration_bare (n : Node) : n.bare.isDeclaration = n.isDeclaration := by
  cases n <;> rfl

/-- The warnings about a program without ids and places are those about the program. -/
theorem Program.warnings_bare (p : Program) (env : Environment) :
    (LintRule.all.flatMap fun rule ↦ rule.check p.bare env) =
      (LintRule.all.flatMap fun rule ↦ rule.check p env).map Warning.bare :=
  LintRule.check_map rfl rfl Node.references_bare Node.isDeclaration_bare
    (fun n _ _ ↦ by rw [n.span_bare, Warning.bare]) env

/-! ## Reports -/

namespace Program.Reordered

variable {p q : Program} (same : p.Reordered q)
include same

/-- The same warnings are given, in any order. -/
theorem warnings_perm (env : Environment) :
    ((LintRule.all.flatMap fun rule ↦ rule.check p env).map Warning.bare).Perm
      ((LintRule.all.flatMap fun rule ↦ rule.check q env).map Warning.bare) := by
  have root : p.bare.root.references = q.bare.root.references := congrArg Node.references same.root
  have referenced (name : String) :
      name ∈ LintRule.referenced p.bare ↔ name ∈ LintRule.referenced q.bare := by
    rw [LintRule.referenced, LintRule.referenced, root]
    exact ((same.functors.flatMap_right _).append_left _).mem_iff
  have unused : (LintRule.unusedFunctor.check p.bare env).Perm
      (LintRule.unusedFunctor.check q.bare env) := by
    simp only [LintRule.unusedFunctor, referenced]
    exact same.functors.filterMap _
  have shadowed : (LintRule.shadowedTask.check p.bare env).Perm
      (LintRule.shadowedTask.check q.bare env) := same.functors.filterMap _
  rw [← warnings_bare, ← warnings_bare]
  simpa [LintRule.all] using unused.append shadowed

/-- Programs with the same declarations are checked alike. -/
theorem check_agrees (wf : p.WellFormed) (wf' : q.WellFormed)
    (distinct : (p.signatures.map (·.2.name)).Nodup) (base : Environment) :
    (p.check base).Agrees (q.check base) := by
  have env := same.environment_eq distinct base
  have nodes := same.nodes_perm
  -- both are compared with the first one without ids and places
  have bodies := p.functorBody_bare
  have bodies' := same.bodies wf
  have success : (p.check base).success = (q.check base).success := by
    rw [Bool.eq_iff_iff, check, check, wf.success_iff_of_bodies bodies,
      wf'.success_iff_of_bodies bodies', env]
    simp only [nodes.mem_iff]
  have errors : ((p.infer (p.environment base)).2.errors.map TypeError.bare).Perm
      ((q.infer (q.environment base)).2.errors.map TypeError.bare) := by
    classical
    refine List.perm_iff_count.2 fun x ↦ ?_
    rw [(p.infer_covers wf _).2.1.count_errors wf bodies,
      (q.infer_covers wf' _).2.1.count_errors wf' bodies', env, nodes.countP_eq]
  have functorTypes : (p.infer (p.environment base)).2.functorTypes =
      (q.infer (q.environment base)).2.functorTypes := by
    refine SortedMap.eq_of_get?_eq fun name ↦ Option.ext fun t ↦ ?_
    rw [wf.get?_functorTypes_iff bodies, wf'.get?_functorTypes_iff bodies', env]
  have sorted (found : List TypeError) :
      ((found.mergeSort TypeError.notAfter).map TypeError.bare).Perm (found.map TypeError.bare) :=
    (List.mergeSort_perm found _).map _
  have environment (p : Program) : (p.check base).environment =
      if (p.check base).success then
        some ((p.environment base).merge (p.infer (p.environment base)).2.functorTypes)
      else none := rfl
  exact {
    success
    errors := (sorted _).trans (errors.trans (sorted _).symm)
    warnings := by
      have known : (q.check base).warnings =
          LintRule.all.flatMap fun rule ↦ rule.check q (p.environment base) := by
        rw [← env]
        rfl
      rw [known]
      exact same.warnings_perm _
    programType := by
      refine Option.ext fun t ↦ ?_
      rw [check, check, wf.programType_checkWith_iff, wf'.programType_checkWith_iff, env,
        ← hasType_iff_of_bodies bodies, ← hasType_iff_of_bodies bodies', same.root]
      exact and_congr_left fun _ ↦ by rw [← check, ← check, success]
    environment := by rw [environment, environment, success, functorTypes, env] }

end Program.Reordered

end Taskflow
