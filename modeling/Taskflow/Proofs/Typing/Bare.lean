import Taskflow.Proofs.Grammar.RoundTrip
import Taskflow.Proofs.Typing.Exactness

/-!
# Typing without ids and places

Whether a program passes its check, and with which type, depends on its declarations and its root
alone, and not on the ids of nodes or on where they stand.  So programs that come from different
texts are compared through one that has neither (`WellFormed.success_iff`,
`WellFormed.programType_iff`).
-/

namespace Taskflow

namespace Program

variable {p d : Program} {env : Environment}

/-- A node has the type that it has without ids and places, in any program in which names stand for
the same without ids and places. -/
theorem hasType_iff_of_bodies
    (bodies : ∀ name, d.functorBody name = (p.functorBody name).map Node.bare) {n : Node} {t : Ty} :
    d.HasType env n.bare t ↔ p.HasType env n t := by
  constructor
  · intro h
    generalize bare : n.bare = m at h
    induction h generalizing n with
    | task none found =>
      cases n with
      | literal id name span =>
        cases bare
        rw [bodies, Option.map_eq_none_iff] at none
        exact .task none found
      | _ => cases bare
    | named found _ ih =>
      cases n with
      | literal id name span =>
        cases bare
        rw [bodies, Option.map_eq_some_iff] at found
        obtain ⟨body, found, rfl⟩ := found
        exact .named found (ih rfl)
      | _ => cases bare
    | composition _ _ fits ihInner ihOuter =>
      cases n with
      | composition id outer inner span =>
        cases bare
        exact .composition (ihInner rfl) (ihOuter rfl) fits
      | _ => cases bare
    | product _ _ fits ihLeft ihRight =>
      cases n with
      | product id left right span =>
        cases bare
        exact .product (ihLeft rfl) (ihRight rfl) fits
      | _ => cases bare
    | functor _ ih =>
      cases n with
      | functor id name body span =>
        cases bare
        exact .functor (ih rfl)
      | _ => cases bare
  · intro h
    induction h with
    | task none found =>
      refine .task ?_ found
      rw [bodies, none]
      rfl
    | named found _ ih =>
      refine .named ?_ ih
      rw [bodies, found]
      rfl
    | composition _ _ fits ihInner ihOuter => exact .composition ihInner ihOuter fits
    | product _ _ fits ihLeft ihRight => exact .product ihLeft ihRight fits
    | functor _ ih => exact .functor ih

variable {root : Node} (same : p.bare = { d with root, span := .nowhere })

include same

/-- Names stand for the same in a program without ids and places. -/
theorem functorBody_of_bare (name : String) :
    d.functorBody name = (p.functorBody name).map Node.bare := by
  have functors : d.functors = p.functors.map fun f ↦ (f.1, f.2.bare) :=
    (congrArg Program.functors same).symm
  have found : d.functors.lookup name = (p.functors.lookup name).map Node.bare := by
    rw [functors, lookup_map_snd]
  rw [functorBody, functorBody, found]
  cases p.functors.lookup name with
  | none => rfl
  | some n => cases n <;> rfl

/-- Tasks have the same types. -/
theorem environment_of_bare (base : Environment) : d.environment base = p.environment base := by
  have signatures : d.signatures = p.signatures.map fun s ↦ (s.1, s.2.bare) :=
    (congrArg Program.signatures same).symm
  rw [environment, environment, declared, declared, signatures, List.map_map]
  rfl

/-- A node has the type that it has without ids and places. -/
theorem hasType_bare_iff {n : Node} {t : Ty} : d.HasType env n.bare t ↔ p.HasType env n t :=
  hasType_iff_of_bodies (functorBody_of_bare same)

theorem root_of_bare : root = p.root.bare := (congrArg Program.root same).symm

/-- A program passes its check if its functors and its root have types. -/
theorem WellFormed.success_iff (wf : p.WellFormed) (base : Environment) :
    (p.check base).success = true ↔
      (∀ f ∈ d.functors, d.Typed (d.environment base) f.2) ∧
        d.Typed (d.environment base) root := by
  have typed : ∀ {n : Node}, d.Typed (d.environment base) n.bare ↔
      ∀ m ∈ n.all, p.Typed (p.environment base) m := by
    intro n
    rw [environment_of_bare same]
    have same : d.Typed (p.environment base) n.bare ↔ p.Typed (p.environment base) n :=
      exists_congr fun t ↦ hasType_bare_iff same
    rw [same]
    constructor
    · exact fun typed m mem ↦ typed.of_mem_all mem
    · exact fun typed ↦ typed n n.mem_all_self
  have functors : d.functors = p.functors.map fun f ↦ (f.1, f.2.bare) :=
    (congrArg Program.functors same).symm
  have report := wf.exact_checkWith LintRule.all base
  rw [functors, root_of_bare same, typed, Program.check, report.success_iff, nodes]
  simp only [List.mem_append, List.mem_flatMap, List.mem_map]
  constructor
  · intro all
    refine ⟨?_, fun n mem ↦ all n (.inr mem)⟩
    rintro - ⟨f, hf, rfl⟩
    exact typed.2 fun n mem ↦ all n (.inl ⟨f, hf, mem⟩)
  · rintro ⟨functors, root⟩ n (⟨f, hf, mem⟩ | mem)
    · exact typed.1 (functors _ ⟨f, hf, rfl⟩) n mem
    · exact root n mem

/-- On success the type of the program is that of its root. -/
theorem WellFormed.programType_iff (wf : p.WellFormed) {base : Environment}
    (success : (p.check base).success = true) {t : Ty} :
    (p.check base).programType = some t ↔ d.HasType (d.environment base) root t := by
  rw [root_of_bare same, environment_of_bare same, hasType_bare_iff same]
  exact wf.programType_checkWith success t

end Program

end Taskflow
