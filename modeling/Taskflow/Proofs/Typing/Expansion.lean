import Taskflow.Proofs.Program.Expansion
import Taskflow.Proofs.Typing.Exactness

/-!
# Checking what is written out

A program passes its check if and only if its root and the body of each of its functors do, each as
the root of a program without functors in which all functor names are written out; and then they
have the types that they have in the program (`check_expanded`).

A body that is written out twice repeats its ids and its places, so the programs without functors
are not well-formed and what is known of the reports of parsed programs does not reach them.  They
need less: inference looks up no functor there, so whether it yields a type, and whether it
complains on the way, depends on the expression alone (`infer_alone`).
-/

namespace Taskflow

namespace Program

variable {p : Program} {env : Environment} {n n' : Node}

/-- The program with the same signatures that has no functors and another root. -/
def alone (p : Program) (n : Node) : Program := { p with functors := [], root := n }

theorem environment_alone (p : Program) (n : Node) (base : Environment) :
    (p.alone n).environment base = p.environment base := rfl

/-- What is written out has the type of what it is written out of. -/
theorem Expands.hasType_iff (h : p.Expands n n') (root : Node) {t : Ty} :
    (p.alone root).HasType env n' t ↔ p.HasType env n t := by
  induction h generalizing t with
  | task none => rw [hasType_task_iff rfl, hasType_task_iff none]
  | named found _ ih => rw [ih, hasType_named_iff found]
  | composition _ _ ihOuter ihInner => simp only [hasType_composition_iff, ihOuter, ihInner]
  | product _ _ ihLeft ihRight => simp only [hasType_product_iff, ihLeft, ihRight]
  | functor _ ih => rw [hasType_functor_iff, hasType_functor_iff, ih]

theorem Expands.isExpr (h : p.Expands n n') (expr : n.IsExpr)
    (bodies : ∀ name body, p.functorBody name = some body → body.IsExpr) : n'.IsExpr := by
  induction h with
  | task => trivial
  | named found _ ih => exact ih (bodies _ _ found)
  | composition _ _ ihOuter ihInner => exact ⟨ihOuter expr.1, ihInner expr.2⟩
  | product _ _ ihLeft ihRight => exact ⟨ihLeft expr.1, ihRight expr.2⟩
  | functor => exact expr.elim

/-! ## Inference without functors -/

/-- What inferring the type of `n` comes to in a program without functors: it yields the type of
`n` if there is one, and it complains if there is none. -/
structure Judges (q : Program) (env : Environment) (f : Findings) (n : Node)
    (r : Option Ty × Findings) : Prop where
  type : ∀ t, r.1 = some t ↔ q.HasType env n t
  errors : ∃ new, r.2.errors = f.errors ++ new ∧ (new = [] ↔ q.Typed env n)

namespace Judges

variable {q : Program} {f f' : Findings} {new : List TypeError}

theorem record {t : Ty} (errors : f'.errors = f.errors ++ new) (quiet : new = [])
    (typed : q.HasType env n t) : Judges q env f n (f'.record n.id (some t)) where
  type u := by
    constructor
    · rintro ⟨⟩
      exact typed
    · exact fun h ↦ congrArg some (typed.unique h)
  errors := ⟨new, errors, iff_of_true quiet ⟨t, typed⟩⟩

theorem report (errors : f'.errors = f.errors ++ new) (untyped : ¬ q.Typed env n)
    (e : TypeError) : Judges q env f n (none, f'.report e) where
  type u := iff_of_false nofun fun h ↦ untyped ⟨u, h⟩
  errors := by
    refine ⟨new ++ [e], ?_, iff_of_false (by simp) untyped⟩
    rw [Findings.report, errors, List.append_assoc]

/-- A node is left alone where something that it depends on has been complained of. -/
theorem skip {m : Node} (errors : f'.errors = f.errors ++ new)
    (quiet : new = [] → q.Typed env m) (depends : m ∈ n.dependencies q.functorBody)
    (untyped : ¬ q.Typed env m) : Judges q env f n (none, f') := by
  have untyped' : ¬ q.Typed env n := fun typed ↦ untyped (typed.of_mem_dependencies depends)
  exact ⟨fun u ↦ iff_of_false nofun fun h ↦ untyped' ⟨u, h⟩,
    new, errors, iff_of_false (fun silent ↦ untyped (quiet silent)) untyped'⟩

/-- Inferring one node after the other complains if one of them has no type. -/
theorem both {m : Node} {r r' : Option Ty × Findings} (first : Judges q env f m r)
    (second : Judges q env r.2 n r') :
    ∃ new, r'.2.errors = f.errors ++ new ∧ (new = [] ↔ q.Typed env m ∧ q.Typed env n) := by
  obtain ⟨new, errors, quiet⟩ := first.errors
  obtain ⟨new', errors', quiet'⟩ := second.errors
  refine ⟨new ++ new', ?_, ?_⟩
  · rw [errors', errors, List.append_assoc]
  · rw [List.append_eq_nil_iff, quiet, quiet']

/-- Where inference yields no type there is none. -/
theorem untyped {r : Option Ty × Findings} (h : Judges q env f n r) (none : r.1 = none) :
    ¬ q.Typed env n := by
  rintro ⟨t, typed⟩
  cases none.symm.trans ((h.type t).2 typed)

end Judges

/-- Inference judges an expression of a program without functors. -/
theorem infer_alone (p : Program) (root : Node) (expr : n.IsExpr) (f : Findings) :
    Judges (p.alone root) env f n (Taskflow.infer (p.alone root).isFunctor env f n) := by
  induction n generalizing f with
  | literal id name span =>
    have nowhere : ¬(p.alone root).isFunctor name = true := Bool.false_ne_true
    rw [Taskflow.infer, if_neg nowhere]
    cases declared : env.get? name with
    | some t => exact .record (List.append_nil _).symm rfl (.task rfl declared)
    | none =>
      refine .report (List.append_nil _).symm ?_ _
      rw [typed_task_iff rfl, declared]
      rintro ⟨_, ⟨⟩⟩
  | composition id outer inner span ihOuter ihInner =>
    have first := ihInner expr.2 f
    rw [Taskflow.infer]
    generalize Taskflow.infer (p.alone root).isFunctor env f inner = r at first
    obtain ⟨innerTy, f₁⟩ := r
    have second := ihOuter expr.1 f₁
    dsimp only
    generalize Taskflow.infer (p.alone root).isFunctor env f₁ outer = r at second
    obtain ⟨outerTy, f₂⟩ := r
    obtain ⟨new, errors, quiet⟩ := first.both second
    cases innerTy with
    | none =>
      have untyped := first.untyped rfl
      cases outerTy <;>
        exact .skip errors (fun silent ↦ (quiet.1 silent).1) (List.mem_pair.2 (.inl rfl)) untyped
    | some i =>
      cases outerTy with
      | none =>
        exact .skip errors (fun silent ↦ (quiet.1 silent).2) (List.mem_pair.2 (.inr rfl))
          (second.untyped rfl)
      | some o =>
        have hInner := (first.type i).1 rfl
        have hOuter := (second.type o).1 rfl
        obtain ⟨a, b, rfl⟩ := hInner.isFn
        obtain ⟨b', c, rfl⟩ := hOuter.isFn
        dsimp only
        rw [Ty.compose?_fn, Ty.arrow_fn, Ty.arrow_fn]
        by_cases fits : b.compatible b'
        · rw [if_pos fits]
          exact .record errors (quiet.2 ⟨⟨_, hInner⟩, _, hOuter⟩) (.composition hInner hOuter fits)
        · rw [if_neg fits]
          refine .report errors ?_ _
          rwa [typed_composition_iff hInner hOuter]
  | product id left right span ihLeft ihRight =>
    have first := ihLeft expr.1 f
    rw [Taskflow.infer]
    generalize Taskflow.infer (p.alone root).isFunctor env f left = r at first
    obtain ⟨leftTy, f₁⟩ := r
    have second := ihRight expr.2 f₁
    dsimp only
    generalize Taskflow.infer (p.alone root).isFunctor env f₁ right = r at second
    obtain ⟨rightTy, f₂⟩ := r
    obtain ⟨new, errors, quiet⟩ := first.both second
    cases leftTy with
    | none =>
      exact .skip errors (fun silent ↦ (quiet.1 silent).1) (List.mem_pair.2 (.inl rfl))
        (first.untyped rfl)
    | some l =>
      cases rightTy with
      | none =>
        exact .skip errors (fun silent ↦ (quiet.1 silent).2) (List.mem_pair.2 (.inr rfl))
          (second.untyped rfl)
      | some r =>
        have hLeft := (first.type l).1 rfl
        have hRight := (second.type r).1 rfl
        obtain ⟨a, b, rfl⟩ := hLeft.isFn
        obtain ⟨a', c, rfl⟩ := hRight.isFn
        dsimp only
        rw [Ty.product?_fn, Ty.arrow_fn, Ty.arrow_fn]
        by_cases fits : a.compatible a'
        · rw [if_pos fits]
          exact .record errors (quiet.2 ⟨⟨_, hLeft⟩, _, hRight⟩) (.product hLeft hRight fits)
        · rw [if_neg fits]
          refine .report errors ?_ _
          rwa [typed_product_iff hLeft hRight]
  | functor => exact expr.elim

/-- An expression without functors passes its check if it has a type, and the report has that
type. -/
theorem checkWith_alone (p : Program) (expr : n.IsExpr) (rules : List LintRule)
    (base : Environment) :
    (((p.alone n).checkWith rules base).success = true ↔
        (p.alone n).Typed (p.environment base) n) ∧
      ∀ t, ((p.alone n).checkWith rules base).programType = some t ↔
        (p.alone n).HasType (p.environment base) n t := by
  have judges : (p.alone n).Judges (p.environment base) .none n
      (Taskflow.infer (p.alone n).isFunctor (p.environment base) .none n) :=
    infer_alone p n expr .none
  obtain ⟨new, errors, quiet⟩ := judges.errors
  have inferred : (p.alone n).infer (p.environment base) =
      Taskflow.infer (p.alone n).isFunctor (p.environment base) .none n := rfl
  have success : ((p.alone n).checkWith rules base).success = true ↔
      (p.alone n).Typed (p.environment base) n := by
    rw [checkWith, environment_alone, inferred, Bool.and_eq_true, List.isEmpty_iff, errors]
    constructor
    · exact fun h ↦ quiet.1 h.1
    · rintro ⟨t, typed⟩
      exact ⟨quiet.2 ⟨t, typed⟩, Option.isSome_iff_exists.2 ⟨t, (judges.type t).2 typed⟩⟩
  refine ⟨success, fun t ↦ ?_⟩
  have type : ((p.alone n).checkWith rules base).programType =
      if ((p.alone n).checkWith rules base).success then
        ((p.alone n).infer (p.environment base)).1 else none := rfl
  rw [type, Option.ite_none_right_eq_some, success, inferred, judges.type]
  exact and_iff_right_of_imp fun typed ↦ ⟨t, typed⟩

/-! ## Programs -/

/-- A well-formed program passes its check if its root and all its functors have types. -/
theorem WellFormed.checkWith_success_iff (wf : p.WellFormed) (rules : List LintRule)
    (base : Environment) :
    (p.checkWith rules base).success = true ↔ p.Typed (p.environment base) p.root ∧
      ∀ name body, p.functorBody name = some body → p.Typed (p.environment base) body := by
  rw [(wf.exact_checkWith rules base).success_iff]
  constructor
  · exact fun typed ↦ ⟨typed _ p.root_mem_nodes,
      fun _ body stands ↦ typed body (wf.functorBody_mem_nodes stands)⟩
  · rintro ⟨root, bodies⟩ n mem
    rw [nodes, List.mem_append, List.mem_flatMap] at mem
    rcases mem with ⟨f, hf, mem⟩ | mem
    · obtain ⟨id, body, span, shape, -⟩ := wf.entry f hf
      obtain ⟨name, node⟩ := f
      dsimp only at shape mem
      subst shape
      obtain ⟨t, typed⟩ := bodies name body (wf.functorBody_eq_some_iff.2 ⟨id, span, hf⟩)
      exact Typed.of_mem_all ⟨t, .functor typed⟩ mem
    · exact root.of_mem_all mem

/-- The root of a program, and for each functor name what it stands for, with all functor names
written out. -/
structure WrittenOut (p : Program) (root : Node) (bodies : String → Node) : Prop where
  root : p.Expands p.root root
  body : ∀ name body, p.functorBody name = some body → p.Expands body (bodies name)

theorem WellFormed.exists_writtenOut (wf : p.WellFormed) :
    ∃ root bodies, p.WrittenOut root bodies := by
  have each (name : String) : ∃ n, ∀ body, p.functorBody name = some body → p.Expands body n := by
    cases stands : p.functorBody name with
    | none => exact ⟨p.root, nofun⟩
    | some body =>
      obtain ⟨n, expands⟩ := (wf.grounded_functorBody stands).expands
      exact ⟨n, fun _ same ↦ Option.some.inj same ▸ expands⟩
  choose bodies expands using each
  obtain ⟨root, expandsRoot⟩ := (wf.grounded p.root_mem_nodes).expands
  exact ⟨root, bodies, expandsRoot, expands⟩

namespace WrittenOut

variable {root : Node} {bodies : String → Node} {rules : List LintRule} {base : Environment}

/-- The program without functors whose root is the root of `p` passes if that root has a type. -/
theorem checkWith_root (h : p.WrittenOut root bodies) (wf : p.WellFormed) :
    (((p.alone root).checkWith rules base).success = true ↔
        p.Typed (p.environment base) p.root) ∧
      ∀ t, ((p.alone root).checkWith rules base).programType = some t ↔
        p.HasType (p.environment base) p.root t := by
  have expr := h.root.isExpr wf.root fun _ _ ↦ wf.isExpr_functorBody
  obtain ⟨success, type⟩ := p.checkWith_alone expr rules base
  exact ⟨success.trans (exists_congr fun _ ↦ h.root.hasType_iff root),
    fun t ↦ (type t).trans (h.root.hasType_iff root)⟩

/-- So it is with the body of a functor. -/
theorem checkWith_body (h : p.WrittenOut root bodies) (wf : p.WellFormed) {name : String}
    {body : Node} (stands : p.functorBody name = some body) :
    (((p.alone (bodies name)).checkWith rules base).success = true ↔
        p.Typed (p.environment base) body) ∧
      ∀ t, ((p.alone (bodies name)).checkWith rules base).programType = some t ↔
        p.HasType (p.environment base) body t := by
  have expands := h.body name body stands
  have expr := expands.isExpr (wf.isExpr_functorBody stands) fun _ _ ↦ wf.isExpr_functorBody
  obtain ⟨success, type⟩ := p.checkWith_alone expr rules base
  exact ⟨success.trans (exists_congr fun _ ↦ expands.hasType_iff _),
    fun t ↦ (type t).trans (expands.hasType_iff _)⟩

end WrittenOut

end Program

/-- A parsed program can be written out, so that no functor is named any more in what comes of its
root and of the bodies of its functors.  It passes its check if and only if all of these pass, each
as the root of a program with the same signatures and no functors; and then its root, and each of
its functors, has the type that it has when it is written out. -/
theorem check_expanded {p : Program} {text : String} (parsed : Program.parse text = .ok p)
    (rules : List LintRule) (base : Environment) :
    (∃ root bodies, p.WrittenOut root bodies) ∧
    ∀ root bodies, p.WrittenOut root bodies →
      (∀ name, p.isFunctor name = true → name ∉ root.references ∧
        ∀ other, p.isFunctor other = true → name ∉ (bodies other).references) ∧
      ((p.checkWith rules base).success = true ↔
        ((p.alone root).checkWith rules base).success = true ∧
          ∀ name, p.isFunctor name = true →
            ((p.alone (bodies name)).checkWith rules base).success = true) ∧
      ((p.checkWith rules base).success = true →
        (∃ t, (p.checkWith rules base).programType = some t ∧
          ((p.alone root).checkWith rules base).programType = some t) ∧
        ∀ name, p.isFunctor name = true → ∃ t,
          (p.checkWith rules base).environment.bind (·.get? name) = some t ∧
            ((p.alone (bodies name)).checkWith rules base).programType = some t) := by
  have wf := Program.wellFormed_of_parse parsed
  refine ⟨wf.exists_writtenOut, fun root bodies written ↦ ?_⟩
  have stands {name : String} (functor : p.isFunctor name = true) :
      ∃ body, p.functorBody name = some body := by
    rwa [wf.isFunctor_eq, Option.isSome_iff_exists] at functor
  refine ⟨fun name functor ↦ ?_, ?_, fun success ↦ ⟨?_, fun name functor ↦ ?_⟩⟩
  · have silent {n n' : Node} (expands : p.Expands n n') : name ∉ n'.references := by
      intro mem
      obtain ⟨body, some⟩ := stands functor
      cases (expands.functorBody_eq_none name mem).symm.trans some
    refine ⟨silent written.root, fun other functor' ↦ ?_⟩
    obtain ⟨body, some⟩ := stands functor'
    exact silent (written.body other body some)
  · rw [wf.checkWith_success_iff, (written.checkWith_root wf).1]
    refine and_congr_right fun _ ↦ ⟨fun typed name functor ↦ ?_, fun passes name body some ↦ ?_⟩
    · obtain ⟨body, some⟩ := stands functor
      exact (written.checkWith_body wf some).1.2 (typed name body some)
    · refine (written.checkWith_body wf some).1.1 (passes name ?_)
      rw [wf.isFunctor_eq, some]
      rfl
  · obtain ⟨t, typed⟩ := ((wf.checkWith_success_iff rules base).1 success).1
    exact ⟨t, (wf.programType_checkWith success t).2 typed,
      ((written.checkWith_root wf).2 t).2 typed⟩
  · obtain ⟨body, some⟩ := stands functor
    obtain ⟨t, typed⟩ := ((wf.checkWith_success_iff rules base).1 success).2 name body some
    exact ⟨t, (wf.environment_checkWith_iff rules base some t).2 ⟨success, typed⟩,
      ((written.checkWith_body wf some).2 t).2 typed⟩

/-- A functor that is written out twice, in another one, and that hides a task of its name. -/
theorem check_expanded_of_nested_functors :
    let source := "f :: Z\na :: b -> (b × X)\nc :: (Y × X) -> Q\nf = a\ng = f ∘ f\nc ∘ f"
    ∃ p, Program.parse source = .ok p ∧ ∃ root bodies, p.WrittenOut root bodies ∧
      ((p.checkWith LintRule.all .empty).success = true ↔
        ((p.alone root).checkWith LintRule.all .empty).success = true ∧
          ∀ name, p.isFunctor name = true →
            ((p.alone (bodies name)).checkWith LintRule.all .empty).success = true) ∧
      (p.checkWith LintRule.all .empty).programType = some (.fn (.mono "Y") (.mono "Q")) := by
  intro source
  have parsed := Except.eq_ok_get (x := Program.parse source) (by decide)
  obtain ⟨⟨root, bodies, written⟩, all⟩ := check_expanded parsed LintRule.all .empty
  refine ⟨_, parsed, root, bodies, written, (all root bodies written).2.1, ?_⟩
  decide +kernel

end Taskflow
