import Taskflow.Proofs.Typing.Bare
import Taskflow.Proofs.Typing.Matching

/-!
# Composing with an identity

A task `id :: v -> v` fits everything on either side, so a composition with it has a type whenever
the other operand has one.  That type is the one of the other operand, with one exception.  When
two variables meet, each takes the name of the other at the far end of its own operand.  So if `e`
yields a variable `w` that it also accepts somewhere, then `id ∘ e` accepts `v` there and still
yields `w`: the composition has lost the link (`Ty.Captured`), and no renaming brings it back
(`Ty.rename_ne_substitute`).  The same happens to `e ∘ id` at the other end.

`check_identity` says both: what is composed with an identity passes its check, and it has the type
that it had, even up to renaming, just if no link is lost.
-/

namespace Taskflow

namespace Ty

/-- Whether `t` is a variable, other than `v`, that occurs in `u`: when it meets `v` it is replaced
there. -/
def Captured (v : String) (t u : Ty) : Prop := ∃ w, t = .var w ∧ w ≠ v ∧ w ∈ u.vars

/-- What meets a variable is not changed by that where it is not captured. -/
theorem apply_bind_of_not_captured {v : String} {t u : Ty} (h : ¬ t.Captured v u) :
    u.apply (t.bind (.var v) []) = u := by
  cases shape : t.isVar with
  | false => rw [bind_var_of_not_isVar shape, apply_nil]
  | true =>
    cases t with
    | var w =>
      by_cases same : w = v
      · rw [same, bind, if_pos rfl, apply_nil]
      · refine apply_bind_of_apart fun x mem inVar ↦ h ⟨w, rfl, same, ?_⟩
        rwa [← mem_vars_var.1 inVar]
    | _ => cases shape

/-- Where a variable is captured it is replaced. -/
theorem apply_bind_of_ne {v w : String} (differ : w ≠ v) (u : Ty) :
    u.apply ((var w).bind (.var v) []) = u.substitute w (.var v) := by
  have other : var v ≠ var w := fun same ↦ differ (Ty.var.inj same).symm
  rw [bind, if_neg other]
  rfl

/-- A variable that is replaced by another one is gone. -/
theorem notMem_vars_substitute {v w : String} (differ : w ≠ v) (u : Ty) :
    w ∉ (u.substitute w (.var v)).vars := by
  unfold substitute
  induction u with
  | mono | unit => exact List.not_mem_nil
  | var a =>
    rw [apply, lookup_cons_eq_ite, List.lookup_nil]
    split
    next => simpa using differ
    next other => simpa using Ne.symm other
  | fn a b ihA ihB =>
    rw [apply, mem_vars_fn]
    exact not_or.2 ⟨ihA, ihB⟩
  | prod a b ihA ihB =>
    rw [apply, mem_vars_prod]
    exact not_or.2 ⟨ihA, ihB⟩

/-- No renaming that keeps a variable replaces it. -/
theorem rename_ne_substitute {v w : String} {u : Ty} {r : String → String} (differ : w ≠ v)
    (mem : w ∈ u.vars) (keeps : r w = w) : u.rename r ≠ u.substitute w (.var v) := by
  intro same
  have mem := mem_vars_rename (r := r) mem
  rw [keeps, same] at mem
  exact notMem_vars_substitute differ u mem

/-- Composed with an identity in front of it, something has its type up to renaming just if what it
yields is not captured. -/
theorem isRenaming_fn_iff_left {v : String} {a b : Ty} :
    (fn a b).IsRenaming (.fn (a.apply (b.bind (.var v) [])) b) ↔ ¬ b.Captured v a := by
  constructor
  · rintro ⟨r, -, same⟩ ⟨w, rfl, differ, mem⟩
    obtain ⟨domain, codomain⟩ := Ty.fn.inj same
    rw [apply_bind_of_ne differ] at domain
    exact rename_ne_substitute differ mem (Ty.var.inj codomain) domain
  · intro free
    rw [apply_bind_of_not_captured free]
    exact .refl _

/-- Composed with an identity behind it, something has its type up to renaming just if what it
accepts is not captured. -/
theorem isRenaming_fn_iff_right {v : String} {a b : Ty} :
    (fn a b).IsRenaming (.fn a (b.apply (a.bind (.var v) []))) ↔ ¬ a.Captured v b := by
  constructor
  · rintro ⟨r, -, same⟩ ⟨w, rfl, differ, mem⟩
    obtain ⟨domain, codomain⟩ := Ty.fn.inj same
    rw [apply_bind_of_ne differ] at codomain
    exact rename_ne_substitute differ mem (Ty.var.inj domain) codomain
  · intro free
    rw [apply_bind_of_not_captured free]
    exact .refl _

end Ty

namespace Program

variable {p : Program} {env : Environment} {e one : Node} {v : String} {a b : Ty} {i : NodeId}
  {s : Span}

/-- What an identity is applied to has a type, whatever it yields. -/
theorem HasType.after_identity (typed : p.HasType env e (.fn a b))
    (identity : p.HasType env one (.fn (.var v) (.var v))) :
    p.HasType env (.composition i one e s) (.fn (a.apply (b.bind (.var v) [])) b) := by
  have fits := Ty.compatible_var b v
  rw [hasType_composition_iff]
  exact ⟨a, b, _, _, typed, identity, fits, by rw [Ty.apply_bind_var]⟩

/-- What is applied to an identity has a type, whatever it accepts. -/
theorem HasType.before_identity (typed : p.HasType env e (.fn a b))
    (identity : p.HasType env one (.fn (.var v) (.var v))) :
    p.HasType env (.composition i e one s) (.fn a (b.apply (a.bind (.var v) []))) := by
  rw [hasType_composition_iff]
  exact ⟨_, _, a, b, identity, typed, rfl, by rw [Ty.apply_bind_var]⟩

end Program

/-- Three programs with the same declarations: an expression that passes its check with the type
`a -> b`, and its compositions with a task `name :: v -> v` in front of it and behind it.  Both
compositions pass.  The first has the type `a -> b`, be it up to renaming or exactly, if and only if
`b` is not a variable other than `v` that occurs in `a`, and the second if and only if `a` is not
one that occurs in `b`. -/
theorem check_identity {text text₁ text₂ : String} {p q r d : Program} {e : Node}
    {name v : String} (parsed : Program.parse text = .ok p)
    (parsed₁ : Program.parse text₁ = .ok q) (parsed₂ : Program.parse text₂ = .ok r)
    (plain : p.bare = { d with root := e, span := .nowhere })
    (after : q.bare = { d with
      root := .composition 0 (.literal 0 name .nowhere) e .nowhere, span := .nowhere })
    (before : r.bare = { d with
      root := .composition 0 e (.literal 0 name .nowhere) .nowhere, span := .nowhere })
    (base : Environment) (task : d.functorBody name = none)
    (declared : (d.environment base).get? name = some (.fn (.var v) (.var v)))
    (success : (p.check base).success = true) :
    ∃ a b, (p.check base).programType = some (.fn a b) ∧
      (q.check base).success = true ∧ (r.check base).success = true ∧
      (∃ t, (q.check base).programType = some t ∧
        ((Ty.fn a b).IsRenaming t ↔ ¬ b.Captured v a) ∧ (¬ b.Captured v a → t = .fn a b)) ∧
      ∃ t, (r.check base).programType = some t ∧
        ((Ty.fn a b).IsRenaming t ↔ ¬ a.Captured v b) ∧ (¬ a.Captured v b → t = .fn a b) := by
  have wf := Program.wellFormed_of_parse parsed
  have wf₁ := Program.wellFormed_of_parse parsed₁
  have wf₂ := Program.wellFormed_of_parse parsed₂
  obtain ⟨functors, t, typed⟩ := (wf.success_iff plain base).1 success
  obtain ⟨a, b, rfl⟩ := typed.isFn
  have identity : d.HasType (d.environment base) (.literal 0 name .nowhere)
      (.fn (.var v) (.var v)) := .task task declared
  have typed₁ := typed.after_identity (i := 0) (s := .nowhere) identity
  have typed₂ := typed.before_identity (i := 0) (s := .nowhere) identity
  have success₁ := (wf₁.success_iff after base).2 ⟨functors, _, typed₁⟩
  have success₂ := (wf₂.success_iff before base).2 ⟨functors, _, typed₂⟩
  refine ⟨a, b, (wf.programType_iff plain success).2 typed, success₁, success₂, ?_, ?_⟩
  · refine ⟨_, (wf₁.programType_iff after success₁).2 typed₁, Ty.isRenaming_fn_iff_left, ?_⟩
    intro free
    rw [Ty.apply_bind_of_not_captured free]
  · refine ⟨_, (wf₂.programType_iff before success₂).2 typed₂, Ty.isRenaming_fn_iff_right, ?_⟩
    intro free
    rw [Ty.apply_bind_of_not_captured free]

/-- A task that swaps the sides of a pair keeps its type on either side of an identity. -/
theorem check_identity_of_swap :
    let declarations := "id :: a -> a\ne :: (b × c) -> (c × b)\n"
    let t : Ty := .fn (.prod (.var "b") (.var "c")) (.prod (.var "c") (.var "b"))
    ∃ p q r, Program.parse (declarations ++ "e") = .ok p ∧
      Program.parse (declarations ++ "id ∘ e") = .ok q ∧
      Program.parse (declarations ++ "e ∘ id") = .ok r ∧
      (p.check .empty).programType = some t ∧ (q.check .empty).programType = some t ∧
      (r.check .empty).programType = some t := by
  intro declarations t
  have parsed := Except.eq_ok_get (x := Program.parse (declarations ++ "e")) (by decide +kernel)
  have parsed₁ := Except.eq_ok_get
    (x := Program.parse (declarations ++ "id ∘ e")) (by decide +kernel)
  have parsed₂ := Except.eq_ok_get
    (x := Program.parse (declarations ++ "e ∘ id")) (by decide +kernel)
  let d : Program :=
    { signatures := [("id", .fn (.var "a") (.var "a")), ("e", t)].map fun s ↦
        (s.1, ⟨s.1, s.2, .nowhere⟩)
      functors := []
      root := .literal 0 "e" .nowhere
      span := .nowhere }
  have declared : (d.environment .empty).get? "id" = some (.fn (.var "a") (.var "a")) := by
    decide +kernel
  obtain ⟨a, b, type, -, -, ⟨t₁, type₁, -, same₁⟩, ⟨t₂, type₂, -, same₂⟩⟩ :=
    check_identity (d := d) (e := .literal 0 "e" .nowhere) parsed parsed₁ parsed₂
      (by decide +kernel) (by decide +kernel) (by decide +kernel) .empty rfl declared
      (by decide +kernel)
  have known : some (.fn a b) = some t := type.symm.trans (by decide +kernel)
  obtain ⟨rfl, rfl⟩ := Ty.fn.inj (Option.some.inj known)
  have free (l m : Ty) (u : Ty) : ¬ (Ty.prod l m).Captured "a" u := nofun
  rw [same₁ (free _ _ _)] at type₁
  rw [same₂ (free _ _ _)] at type₂
  exact ⟨_, _, _, parsed, parsed₁, parsed₂, type, type₁, type₂⟩

/-- An identity on another variable loses its link at the end where it meets the first one. -/
theorem identity_loses_link :
    let type (root : String) : Option (Option Ty) :=
      (Program.parse ("id :: a -> a\ne :: b -> b\n" ++ root)).toOption.map fun p ↦
        (p.check .empty).programType
    let linked : Ty := .fn (.var "b") (.var "b")
    type "e" = some (some linked) ∧
      type "id ∘ e" = some (some (.fn (.var "a") (.var "b"))) ∧
      type "e ∘ id" = some (some (.fn (.var "b") (.var "a"))) ∧
      ¬ linked.IsRenaming (.fn (.var "a") (.var "b")) ∧
      ¬ linked.IsRenaming (.fn (.var "b") (.var "a")) := by
  intro type linked
  refine ⟨by decide +kernel, by decide +kernel, by decide +kernel, ?_, ?_⟩
  · rintro ⟨r, -, same⟩
    obtain ⟨domain, codomain⟩ := Ty.fn.inj same
    exact absurd (domain.symm.trans codomain) (by decide)
  · rintro ⟨r, -, same⟩
    obtain ⟨domain, codomain⟩ := Ty.fn.inj same
    exact absurd (domain.symm.trans codomain) (by decide)

end Taskflow
