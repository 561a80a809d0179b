import Taskflow.Proofs.Program.Structure
import Taskflow.Typing.Infer

/-!
# Typing rules

`p.HasType env n t` says which type a node has, in the environment `env`, without saying how to find
it: the rule for a functor name asks for a derivation for the functor's body, wherever that stands.
A node has at most one type (`HasType.unique`), and it is a function type (`HasType.isFn`).

A node is *at fault* if everything it depends on has a type and it has none; `Program.Reports` says
what has to be reported of it.
-/

namespace Taskflow

namespace Program

variable (p : Program) (env : Environment)

/-- The typing rules. -/
inductive HasType : Node → Ty → Prop
  /-- a task has its declared type, read as a function -/
  | task {id name span t} :
    p.functorBody name = none → env.get? name = some t → HasType (.literal id name span) t.asFn
  /-- a functor name has the type of what it stands for -/
  | named {id name span body t} :
    p.functorBody name = some body → HasType body t → HasType (.literal id name span) t
  /-- what the inner operand yields has to fit what the outer one accepts; variables of either side
  take what they meet on the other -/
  | composition {id outer inner span a b b' c} :
    HasType inner (.fn a b) → HasType outer (.fn b' c) → b.compatible b' →
      HasType (.composition id outer inner span)
        (.fn (a.apply (b.bind b' [])) (c.apply (b'.bind b [])))
  /-- both branches have to accept the same input -/
  | product {id left right span a b a' c} :
    HasType left (.fn a b) → HasType right (.fn a' c) → a.compatible a' →
      HasType (.product id left right span)
        (.fn (if a.isVar then a' else a)
          (.prod (b.apply (a.bind a' [])) (c.apply (a'.bind a []))))
  /-- a declaration has the type of its body -/
  | functor {id name body span t} : HasType body t → HasType (.functor id name body span) t

/-- Whether a node has a type. -/
def Typed (n : Node) : Prop := ∃ t, p.HasType env n t

/-- Whether a node is at fault: it has no type, although everything that it depends on has one. -/
def Faulty (n : Node) : Prop :=
  (∀ m ∈ n.dependencies p.functorBody, p.Typed env m) ∧ ¬ p.Typed env n

/-- What is to be reported of a node that is at fault. -/
inductive Reports : Node → TypeError → Prop
  | unbound {id name span} :
    Reports (.literal id name span) (.unbound (.literal id name span) name)
  | composition {id outer inner span a b b' c} :
    p.HasType env inner (.fn a b) → p.HasType env outer (.fn b' c) →
      Reports (.composition id outer inner span)
        (.composition (.composition id outer inner span) outer inner b' b)
  | product {id left right span a b a' c} :
    p.HasType env left (.fn a b) → p.HasType env right (.fn a' c) →
      Reports (.product id left right span)
        (.product (.product id left right span) left right a a')

variable {p env}

namespace HasType

/-- Every type that a node has is a function type. -/
theorem isFn {n : Node} {t : Ty} (h : p.HasType env n t) : ∃ a b, t = .fn a b := by
  induction h with
  | task => exact ⟨_, _, rfl⟩
  | named _ _ ih => exact ih
  | composition => exact ⟨_, _, rfl⟩
  | product => exact ⟨_, _, rfl⟩
  | functor _ ih => exact ih

/-- A node has at most one type. -/
theorem unique {n : Node} {t u : Ty} (h : p.HasType env n t) (h' : p.HasType env n u) : t = u := by
  induction h generalizing u with
  | task none found =>
    cases h' with
    | task _ found' => rw [Option.some.inj (found.symm.trans found')]
    | named some _ => cases none.symm.trans some
  | named some _ ih =>
    cases h' with
    | task none _ => cases none.symm.trans some
    | named some' typed =>
      obtain rfl := Option.some.inj (some.symm.trans some')
      exact ih typed
  | composition _ _ _ ihInner ihOuter =>
    cases h' with
    | composition inner outer _ =>
      cases ihInner inner
      cases ihOuter outer
      rfl
  | product _ _ _ ihLeft ihRight =>
    cases h' with
    | product left right _ =>
      cases ihLeft left
      cases ihRight right
      rfl
  | functor _ ih =>
    cases h' with
    | functor typed => exact ih typed

end HasType

/-- A report names its node. -/
theorem Reports.node_eq {n : Node} {e : TypeError} (h : p.Reports env n e) : e.node = n.id := by
  cases h <;> rfl

/-- A report gives the place of its node. -/
theorem Reports.span_eq {n : Node} {e : TypeError} (h : p.Reports env n e) : e.span = n.span := by
  cases h <;> rfl

/-- Only expressions are reported. -/
theorem Reports.isDeclaration_eq {n : Node} {e : TypeError} (h : p.Reports env n e) :
    n.isDeclaration = false := by
  cases h <;> rfl

/-- There is one thing to say of a node. -/
theorem Reports.unique {n : Node} {e e' : TypeError}
    (h : p.Reports env n e) (h' : p.Reports env n e') : e = e' := by
  cases h with
  | unbound =>
    cases h'
    rfl
  | composition hInner hOuter =>
    cases h' with
    | composition hInner' hOuter' =>
      cases hInner.unique hInner'
      cases hOuter.unique hOuter'
      rfl
  | product hLeft hRight =>
    cases h' with
    | product hLeft' hRight' =>
      cases hLeft.unique hLeft'
      cases hRight.unique hRight'
      rfl

/-! ## Typed nodes by their shape -/

theorem typed_task_iff {id : NodeId} {name : String} {span : Span}
    (none : p.functorBody name = none) :
    p.Typed env (.literal id name span) ↔ ∃ t, env.get? name = some t := by
  constructor
  · rintro ⟨t, h⟩
    cases h with
    | task _ found => exact ⟨_, found⟩
    | named some _ => cases none.symm.trans some
  · rintro ⟨t, found⟩
    exact ⟨_, .task none found⟩

theorem typed_composition_iff {id : NodeId} {outer inner : Node} {span : Span} {a b b' c : Ty}
    (hInner : p.HasType env inner (.fn a b)) (hOuter : p.HasType env outer (.fn b' c)) :
    p.Typed env (.composition id outer inner span) ↔ b.compatible b' := by
  constructor
  · rintro ⟨t, h⟩
    cases h with
    | composition inner' outer' fits =>
      cases hInner.unique inner'
      cases hOuter.unique outer'
      exact fits
  · exact fun fits ↦ ⟨_, .composition hInner hOuter fits⟩

theorem typed_product_iff {id : NodeId} {left right : Node} {span : Span} {a b a' c : Ty}
    (hLeft : p.HasType env left (.fn a b)) (hRight : p.HasType env right (.fn a' c)) :
    p.Typed env (.product id left right span) ↔ a.compatible a' := by
  constructor
  · rintro ⟨t, h⟩
    cases h with
    | product left' right' fits =>
      cases hLeft.unique left'
      cases hRight.unique right'
      exact fits
  · exact fun fits ↦ ⟨_, .product hLeft hRight fits⟩

/-- A task has a type just if it is known. -/
theorem hasType_task_iff {id : NodeId} {name : String} {span : Span} {t : Ty}
    (none : p.functorBody name = none) :
    p.HasType env (.literal id name span) t ↔ ∃ u, env.get? name = some u ∧ t = u.asFn := by
  constructor
  · intro h
    cases h with
    | task _ found => exact ⟨_, found, rfl⟩
    | named some _ => cases none.symm.trans some
  · rintro ⟨u, found, rfl⟩
    exact .task none found

/-- A functor name has the type of what it stands for. -/
theorem hasType_named_iff {id : NodeId} {name : String} {span : Span} {body : Node} {t : Ty}
    (stands : p.functorBody name = some body) :
    p.HasType env (.literal id name span) t ↔ p.HasType env body t := by
  constructor
  · intro h
    cases h with
    | task none _ => cases none.symm.trans stands
    | named stands' typed =>
      obtain rfl := Option.some.inj (stands.symm.trans stands')
      exact typed
  · exact .named stands

/-- A declaration has the type of its body. -/
theorem hasType_functor_iff {id : NodeId} {name : String} {body : Node} {span : Span} {t : Ty} :
    p.HasType env (.functor id name body span) t ↔ p.HasType env body t := by
  constructor
  · intro h
    cases h with
    | functor typed => exact typed
  · exact .functor

/-- A composition has a type just if its operands have types that fit. -/
theorem hasType_composition_iff {id : NodeId} {outer inner : Node} {span : Span} {t : Ty} :
    p.HasType env (.composition id outer inner span) t ↔
      ∃ a b b' c, p.HasType env inner (.fn a b) ∧ p.HasType env outer (.fn b' c) ∧
        b.compatible b' = true ∧ t = .fn (a.apply (b.bind b' [])) (c.apply (b'.bind b [])) := by
  constructor
  · intro h
    cases h with
    | composition inner outer fits => exact ⟨_, _, _, _, inner, outer, fits, rfl⟩
  · rintro ⟨a, b, b', c, inner, outer, fits, rfl⟩
    exact .composition inner outer fits

/-- A product has a type just if its branches have types that accept the same. -/
theorem hasType_product_iff {id : NodeId} {left right : Node} {span : Span} {t : Ty} :
    p.HasType env (.product id left right span) t ↔
      ∃ a b a' c, p.HasType env left (.fn a b) ∧ p.HasType env right (.fn a' c) ∧
        a.compatible a' = true ∧ t = .fn (if a.isVar then a' else a)
          (.prod (b.apply (a.bind a' [])) (c.apply (a'.bind a []))) := by
  constructor
  · intro h
    cases h with
    | product left right fits => exact ⟨_, _, _, _, left, right, fits, rfl⟩
  · rintro ⟨a, b, a', c, left, right, fits, rfl⟩
    exact .product left right fits

/-- A node with a type has types for all it depends on. -/
theorem Typed.of_mem_dependencies {m n : Node} (h : p.Typed env n)
    (hm : m ∈ n.dependencies p.functorBody) : p.Typed env m := by
  obtain ⟨t, h⟩ := h
  cases h with
  | task none _ => simp [Node.dependencies, none] at hm
  | named some typed =>
    obtain rfl : m = _ := by simpa [Node.dependencies, some] using hm
    exact ⟨_, typed⟩
  | composition inner outer _ =>
    rcases List.mem_pair.1 hm with rfl | rfl
    · exact ⟨_, inner⟩
    · exact ⟨_, outer⟩
  | product left right _ =>
    rcases List.mem_pair.1 hm with rfl | rfl
    · exact ⟨_, left⟩
    · exact ⟨_, right⟩
  | functor typed =>
    obtain rfl := List.mem_singleton.1 hm
    exact ⟨_, typed⟩

/-- Everything below a node with a type has a type. -/
theorem Typed.of_mem_all {m n : Node} (h : p.Typed env n) (hm : m ∈ n.all) : p.Typed env m := by
  refine Node.of_mem_all (P := p.Typed env) ?_ ?_ ?_ h hm
  · intro id outer inner span typed
    constructor
    · exact typed.of_mem_dependencies (by simp [Node.dependencies])
    · exact typed.of_mem_dependencies (by simp [Node.dependencies])
  · intro id left right span typed
    constructor
    · exact typed.of_mem_dependencies (by simp [Node.dependencies])
    · exact typed.of_mem_dependencies (by simp [Node.dependencies])
  · intro id name body span typed
    exact typed.of_mem_dependencies (by simp [Node.dependencies])

/-- A declaration is never at fault. -/
theorem not_faulty_functor {id : NodeId} {name : String} {body : Node} {span : Span} :
    ¬ p.Faulty env (.functor id name body span) := by
  rintro ⟨typed, untyped⟩
  obtain ⟨t, h⟩ := typed body (List.mem_singleton.2 rfl)
  exact untyped ⟨t, .functor h⟩

end Program

end Taskflow
