import Taskflow.Proofs.Typing.Bare
import Taskflow.Proofs.Typing.Matching

/-!
# Distributing a composition over a product

`(f × g) ∘ h` and `(f ∘ h) × (g ∘ h)` mean the same, and where `f` and `g` accept the same type they
also have the same type.  Otherwise the two can come apart, because types are matched two at a time
and variables are wildcards.

* A product accepts what its left branch accepts, or its right branch if the left one is a variable
  as a whole (`Ty.kept`).  So it can accept what the other branch refuses, unless it has no variable
  where that branch has none (`Ty.compatible_of_within`).
* The operands of the second product are compared through what `h` accepts.  This is less than
  comparing `f` with `g` if `h` forgets a variable that it yields, and it is more if `h` yields one
  twice, since only the first occurrence is bound.
* A variable is lost when it meets another one, so a branch that passes a variable on yields
  different types in the two groupings (`Ty.Distributes` says where none does).

`check_distributed` collects what holds.
-/

namespace Taskflow

namespace Ty

/-- What a product accepts whose branches accept `a` and `a'`. -/
def kept (a a' : Ty) : Ty := if a.isVar then a' else a

/-- Whether a type has no variable where another one has none, and is the same there. -/
def within : Ty → Ty → Bool
  | _, .var _ => true
  | .unit, .unit => true
  | .mono a, .mono b => a == b
  | .fn a b, .fn a' b' => a.within a' && b.within b'
  | .prod a b, .prod a' b' => a.within a' && b.within b'
  | _, _ => false

/-- Whether a composition of `h : x -> y` with a product of `f : a -> b` and `g : a' -> c` has the
type of the product of the two compositions: the branches accept the same, or `h` yields and the
product accepts a type without variables, or the branches pass no variable on, and neither does `h`
unless the branches do not use what it passes on and both products accept what the same branch
accepts. -/
def Distributes (a b a' c x y : Ty) : Prop :=
  a = a' ∨ (y.vars = [] ∧ (a.kept a').vars = []) ∨
    (b.Apart a ∧ b.Apart (a.kept a') ∧ c.Apart a' ∧ c.Apart (a.kept a') ∧
      (x.Apart y ∨ b.Apart x ∧ c.Apart x ∧ (x.apply (y.bind a [])).isVar = a.isVar))

instance (a b a' c x y : Ty) : Decidable (Distributes a b a' c x y) :=
  inferInstanceAs (Decidable (_ ∨ _ ∨ _))

variable {a b a' c x y : Ty}

/-! ## What a product accepts -/

@[simp] theorem kept_self (a : Ty) : a.kept a = a := ite_self a

/-- A product accepts nothing that its left branch refuses. -/
theorem compatible_of_kept {t : Ty} (h : t.compatible (a.kept a') = true) :
    t.compatible a = true := by
  cases a with
  | var v => exact compatible_var t v
  | _ => exact h

/-- Only a variable accepts what a variable accepts, which is everything. -/
theorem isVar_of_forall {t : Ty} {a : String}
    (h : ∀ u : Ty, u.compatible (.var a) = true → u.compatible t = true) : t.isVar = true := by
  cases t with
  | var => rfl
  | unit => cases h (.prod .unit .unit) (compatible_var _ a)
  | _ => cases h .unit (compatible_var _ a)

/-- Where a type has no variable that another one lacks, it accepts no more than the other one. -/
theorem compatible_of_within {t u v : Ty} (h : t.within u = true) (fits : v.compatible t = true) :
    v.compatible u = true := by
  fun_induction within t u generalizing v with
  | case1 => exact compatible_var v _
  | case2 => exact fits
  | case3 => rwa [← beq_iff_eq.1 h]
  | case4 a b a' b' ihA ihB =>
    rw [Bool.and_eq_true] at h
    cases v with
    | var => rfl
    | fn v w =>
      rw [compatible, Bool.and_eq_true] at fits ⊢
      exact ⟨ihA h.1 fits.1, ihB h.2 fits.2⟩
    | _ => cases fits
  | case5 a b a' b' ihA ihB =>
    rw [Bool.and_eq_true] at h
    cases v with
    | var => rfl
    | prod v w =>
      rw [compatible, Bool.and_eq_true] at fits ⊢
      exact ⟨ihA h.1 fits.1, ihB h.2 fits.2⟩
    | _ => cases fits
  | case6 => cases h

/-- A type that accepts no more than another one has no variable that the other one lacks. -/
theorem within_of_forall {t u : Ty}
    (h : ∀ v : Ty, v.compatible t = true → v.compatible u = true) : t.within u = true := by
  induction u generalizing t with
  | var => cases t <;> rfl
  | unit | mono =>
    cases t with
    | var => cases isVar_of_forall h
    | _ => exact h _ (compatible_self _)
  | fn a' b' ihA ihB =>
    cases t with
    | var => cases isVar_of_forall h
    | fn a b =>
      rw [within, Bool.and_eq_true]
      -- one side varies while the other one stays what it is
      refine ⟨ihA fun v fits ↦ ?_, ihB fun v fits ↦ ?_⟩
      · have := h (.fn v b)
        simp_all [compatible, compatible_self]
      · have := h (.fn a v)
        simp_all [compatible, compatible_self]
    | _ => cases h _ (compatible_self _)
  | prod a' b' ihA ihB =>
    cases t with
    | var => cases isVar_of_forall h
    | prod a b =>
      rw [within, Bool.and_eq_true]
      -- one side varies while the other one stays what it is
      refine ⟨ihA fun v fits ↦ ?_, ihB fun v fits ↦ ?_⟩
      · have := h (.prod v b)
        simp_all [compatible, compatible_self]
      · have := h (.prod a v)
        simp_all [compatible, compatible_self]
    | _ => cases h _ (compatible_self _)

theorem within_iff {t u : Ty} :
    t.within u = true ↔ ∀ v : Ty, v.compatible t = true → v.compatible u = true :=
  ⟨fun h _ fits ↦ compatible_of_within h fits, within_of_forall⟩

/-! ## What a variable meets twice -/

/-- What a variable that occurs once meets in two types that fit each other, fits as well. -/
theorem compatible_of_mem_meetings {v : String} {u u' : Ty} (once : y.count v ≤ 1)
    (fits : a.compatible a' = true) (h : (v, u) ∈ y.meetings a) (h' : (v, u') ∈ y.meetings a') :
    u.compatible u' = true := by
  induction y generalizing a a' with
  | mono | unit => cases a <;> cases h
  | var w =>
    cases List.mem_singleton.1 h
    cases List.mem_singleton.1 h'
    exact fits
  | fn y z ihY ihZ =>
    cases a with
    | fn a b =>
      cases a' with
      | fn a' b' =>
        rw [compatible, Bool.and_eq_true] at fits
        exact of_mem_append (P := fun u u' ↦ u.compatible u' = true) once (ihY · fits.1)
          (ihZ · fits.2) h h'
      | _ => cases h'
    | _ => cases h
  | prod y z ihY ihZ =>
    cases a with
    | prod a b =>
      cases a' with
      | prod a' b' =>
        rw [compatible, Bool.and_eq_true] at fits
        exact of_mem_append (P := fun u u' ↦ u.compatible u' = true) once (ihY · fits.1)
          (ihZ · fits.2) h h'
      | _ => cases h'
    | _ => cases h

/-- Two types that fit a third one fit each other if so does what its variables meet in them. -/
theorem compatible_of_meetings (fits : y.compatible a = true) (fits' : y.compatible a' = true)
    (met : ∀ v u u', (v, u) ∈ y.meetings a → (v, u') ∈ y.meetings a' → u.compatible u' = true) :
    a.compatible a' = true := by
  induction y generalizing a a' with
  | mono | unit => cases a <;> cases a' <;> simp_all [compatible]
  | var w => exact met w a a' (List.mem_singleton.2 rfl) (List.mem_singleton.2 rfl)
  | fn y z ihY ihZ =>
    cases a with
    | var => rfl
    | fn a b =>
      cases a' with
      | var => exact compatible_var _ _
      | fn a' b' =>
        rw [compatible, Bool.and_eq_true] at fits fits' ⊢
        constructor
        · exact ihY fits.1 fits'.1 fun v u u' h h' ↦
            met v u u' (List.mem_append_left _ h) (List.mem_append_left _ h')
        · exact ihZ fits.2 fits'.2 fun v u u' h h' ↦
            met v u u' (List.mem_append_right _ h) (List.mem_append_right _ h')
      | _ => cases fits'
    | _ => cases fits
  | prod y z ihY ihZ =>
    cases a with
    | var => rfl
    | prod a b =>
      cases a' with
      | var => exact compatible_var _ _
      | prod a' b' =>
        rw [compatible, Bool.and_eq_true] at fits fits' ⊢
        constructor
        · exact ihY fits.1 fits'.1 fun v u u' h h' ↦
            met v u u' (List.mem_append_left _ h) (List.mem_append_left _ h')
        · exact ihZ fits.2 fits'.2 fun v u u' h h' ↦
            met v u u' (List.mem_append_right _ h) (List.mem_append_right _ h')
      | _ => cases fits'
    | _ => cases fits

/-- Two substitutions make a type fit itself just if they make each of its variables fit itself. -/
theorem compatible_apply_apply_iff {s s' : Substitution} :
    (x.apply s).compatible (x.apply s') = true ↔
      ∀ v ∈ x.vars, ((var v).apply s).compatible ((var v).apply s') = true := by
  induction x with
  | mono a => exact iff_of_true (compatible_self _) fun v mem ↦ nomatch mem
  | unit => exact iff_of_true rfl fun v mem ↦ nomatch mem
  | var a => simp
  | fn x z ihX ihZ =>
    simp only [apply, compatible, Bool.and_eq_true, mem_vars_fn, or_imp, forall_and]
    exact and_congr ihX ihZ
  | prod x z ihX ihZ =>
    simp only [apply, compatible, Bool.and_eq_true, mem_vars_prod, or_imp, forall_and]
    exact and_congr ihX ihZ

/-- What becomes of a type on both sides fits just if so does all that its variables meet there. -/
theorem compatible_apply_bind_bind_iff (once : ∀ v ∈ x.vars, y.count v ≤ 1) :
    (x.apply (y.bind a [])).compatible (x.apply (y.bind a' [])) = true ↔
      ∀ v ∈ x.vars, ∀ u u', (v, u) ∈ y.meetings a → (v, u') ∈ y.meetings a' →
        u.compatible u' = true := by
  rw [compatible_apply_apply_iff]
  refine forall₂_congr fun v mem ↦ ?_
  rw [compatible_apply_bind_var_iff (once v mem)]
  constructor
  · intro met u u' h h'
    have fits := met u' h'
    rw [compatible_comm, compatible_apply_bind_var_iff (once v mem)] at fits
    rw [compatible_comm]
    exact fits u h
  · intro met u' h'
    rw [compatible_comm, compatible_apply_bind_var_iff (once v mem)]
    intro u h
    rw [compatible_comm]
    exact met u u' h h'

/-! ## The two groupings -/

/-- If the first grouping has a type and what `h` yields fits `g`, then the second one has a type,
unless `h` yields twice what it accepts. -/
theorem compatible_distribute (fits : a.compatible a' = true)
    (joint : y.compatible (a.kept a') = true)
    (h : a = a' ∨ y.compatible a' = true ∧ ∀ v ∈ x.vars, y.count v ≤ 1) :
    y.compatible a = true ∧ y.compatible a' = true ∧
      (x.apply (y.bind a [])).compatible (x.apply (y.bind a' [])) = true := by
  have left := compatible_of_kept joint
  rcases h with rfl | ⟨right, once⟩
  · exact ⟨left, left, compatible_self _⟩
  · refine ⟨left, right, (compatible_apply_bind_bind_iff once).2 fun v mem u u' met met' ↦ ?_⟩
    exact compatible_of_mem_meetings (once v mem) fits met met'

/-- If the second grouping has a type and the branches accept the same, or can be compared through
what `h` accepts, then the first one has a type. -/
theorem compatible_collect (left : y.compatible a = true) (right : y.compatible a' = true)
    (fits : (x.apply (y.bind a [])).compatible (x.apply (y.bind a' [])) = true)
    (h : a.compatible a' = true ∨ ∀ v ∈ y.vars, v ∈ x.vars ∧ y.count v ≤ 1) :
    a.compatible a' = true ∧ y.compatible (a.kept a') = true := by
  have joint : y.compatible (a.kept a') = true := by
    rw [kept]
    split
    · exact right
    · exact left
  refine ⟨h.elim id fun shown ↦ ?_, joint⟩
  have once : ∀ v ∈ x.vars, y.count v ≤ 1 := by
    intro v _
    by_cases mem : v ∈ y.vars
    · exact (shown v mem).2
    · rw [mem_vars_iff] at mem
      omega
  refine compatible_of_meetings left right fun v u u' met met' ↦ ?_
  have mem := (shown v (vars_of_mem_meetings met).1).1
  exact (compatible_apply_bind_bind_iff once).1 fits v mem u u' met met'

/-- What matching binds in the two groupings is the same if `h` yields, and the product accepts, a
type without variables. -/
theorem bind_kept (ground : (a.kept a').vars = []) :
    a.bind (a.kept a') [] = a.bind a' [] ∧ a'.bind (a.kept a') [] = a'.bind a [] := by
  rw [kept] at ground ⊢
  split
  next shape =>
    rw [if_pos shape] at ground
    exact ⟨rfl, by rw [bind_of_vars_eq_nil ground, bind_of_vars_eq_nil ground]⟩
  next shape =>
    rw [if_neg shape] at ground
    exact ⟨by rw [bind_of_vars_eq_nil ground, bind_of_vars_eq_nil ground], rfl⟩

/-- What the product accepts in one grouping it accepts in the other, if `h` does not matter to it
or both products accept what the same branch accepts. -/
theorem kept_apply_bind
    (h : x.Apart y ∨ (x.apply (y.bind a [])).isVar = a.isVar) :
    (x.apply (y.bind a [])).kept (x.apply (y.bind a' [])) = x.apply (y.bind (a.kept a') []) := by
  rcases h with apart | same
  · simp only [apply_bind_of_apart apart, kept_self]
  · rw [kept, kept, same]
    split <;> rfl

/-- A type does not change when what `h` accepts in the second grouping is matched, if it has no
variable of it and of what it was matched with. -/
theorem apply_bind_apply_of_apart {z : Ty} (apart : b.Apart x) (apart' : b.Apart a) :
    b.apply ((x.apply (y.bind a [])).bind z []) = b := by
  refine apply_bind_of_apart fun v mem shown ↦ ?_
  rcases mem_vars_apply_bind shown with shown | shown
  · exact apart v mem shown
  · exact apart' v mem shown

/-- Both groupings have the same type. -/
theorem apply_distribute (joint : y.compatible (a.kept a') = true)
    (h : Distributes a b a' c x y) :
    fn (x.apply (y.bind (a.kept a') []))
        ((prod (b.apply (a.bind a' [])) (c.apply (a'.bind a []))).apply ((a.kept a').bind y [])) =
      fn ((x.apply (y.bind a [])).kept (x.apply (y.bind a' [])))
        (prod
          ((b.apply (a.bind y [])).apply ((x.apply (y.bind a [])).bind (x.apply (y.bind a' [])) []))
          ((c.apply (a'.bind y [])).apply
            ((x.apply (y.bind a' [])).bind (x.apply (y.bind a [])) []))) := by
  rcases h with rfl | ⟨hy, ha⟩ | ⟨left, left', right, right', near⟩
  · simp only [kept_self, bind_self, apply, apply_nil]
  · -- what is yielded is what is accepted, and `h` passes nothing on
    obtain rfl := eq_of_compatible hy ha joint
    simp only [bind_of_vars_eq_nil hy, apply, apply_nil, kept_self, bind_self, bind_kept ha]
  · -- the branches pass nothing on
    rw [kept_apply_bind (near.imp_right fun far ↦ far.2.2), apply,
      apply_bind_of_apart left, apply_bind_of_apart left, apply_bind_of_apart left',
      apply_bind_of_apart right, apply_bind_of_apart right, apply_bind_of_apart right']
    rcases near with apart | ⟨farLeft, farRight, -⟩
    · simp only [apply_bind_of_apart apart, bind_self, apply_nil]
    · rw [apply_bind_apply_of_apart farLeft left, apply_bind_apply_of_apart farRight right]

end Ty

namespace Program

variable {p d : Program} {env : Environment} {f g h : Node} {i j k l m : NodeId}
  {r s u v w : Span} {t t' : Ty}

theorem hasType_joined_iff :
    p.HasType env (.composition i (.product j f g r) h s) t ↔
      ∃ a b a' c x y, p.HasType env f (.fn a b) ∧ p.HasType env g (.fn a' c) ∧
        p.HasType env h (.fn x y) ∧
        (a.compatible a' = true ∧ y.compatible (a.kept a') = true) ∧
        t = .fn (x.apply (y.bind (a.kept a') []))
          ((Ty.prod (b.apply (a.bind a' [])) (c.apply (a'.bind a []))).apply
            ((a.kept a').bind y [])) := by
  rw [hasType_composition_iff]
  constructor
  · rintro ⟨x, y, k, m, hh, hfg, joint, rfl⟩
    obtain ⟨a, b, a', c, hf, hg, fits, same⟩ := hasType_product_iff.1 hfg
    obtain ⟨rfl, rfl⟩ := Ty.fn.inj same
    exact ⟨a, b, a', c, x, y, hf, hg, hh, ⟨fits, joint⟩, rfl⟩
  · rintro ⟨a, b, a', c, x, y, hf, hg, hh, ⟨fits, joint⟩, rfl⟩
    exact ⟨x, y, _, _, hh, .product hf hg fits, joint, rfl⟩

theorem hasType_split_iff :
    p.HasType env (.product i (.composition j f h r) (.composition k g h u) s) t ↔
      ∃ a b a' c x y, p.HasType env f (.fn a b) ∧ p.HasType env g (.fn a' c) ∧
        p.HasType env h (.fn x y) ∧
        (y.compatible a = true ∧ y.compatible a' = true ∧
          (x.apply (y.bind a [])).compatible (x.apply (y.bind a' [])) = true) ∧
        t = .fn ((x.apply (y.bind a [])).kept (x.apply (y.bind a' [])))
          (.prod
            ((b.apply (a.bind y [])).apply
              ((x.apply (y.bind a [])).bind (x.apply (y.bind a' [])) []))
            ((c.apply (a'.bind y [])).apply
              ((x.apply (y.bind a' [])).bind (x.apply (y.bind a [])) []))) := by
  rw [hasType_product_iff]
  constructor
  · rintro ⟨l, m, l', m', hfh, hgh, fits, rfl⟩
    obtain ⟨x, y, a, b, hh, hf, left, same⟩ := hasType_composition_iff.1 hfh
    obtain ⟨x', y', a', c, hh', hg, right, same'⟩ := hasType_composition_iff.1 hgh
    obtain ⟨rfl, rfl⟩ := Ty.fn.inj same
    obtain ⟨rfl, rfl⟩ := Ty.fn.inj same'
    obtain ⟨rfl, rfl⟩ := Ty.fn.inj (hh.unique hh')
    exact ⟨a, b, a', c, x, y, hf, hg, hh, ⟨left, right, fits⟩, rfl⟩
  · rintro ⟨a, b, a', c, x, y, hf, hg, hh, ⟨left, right, fits⟩, rfl⟩
    exact ⟨_, _, _, _, .composition hh hf left, .composition hh hg right, fits, rfl⟩

/-- If the first grouping has a type then so does the second one. -/
theorem typed_split
    (meets : ∀ a b a' c x y, p.HasType env f (.fn a b) → p.HasType env g (.fn a' c) →
      p.HasType env h (.fn x y) → a = a' ∨ y.compatible a' = true ∧ ∀ v ∈ x.vars, y.count v ≤ 1)
    (typed : p.Typed env (.composition i (.product j f g r) h s)) :
    p.Typed env (.product k (.composition l f h u) (.composition m g h v) w) := by
  obtain ⟨t, typed⟩ := typed
  obtain ⟨a, b, a', c, x, y, hf, hg, hh, ⟨fits, joint⟩, -⟩ := hasType_joined_iff.1 typed
  have fits := Ty.compatible_distribute fits joint (meets a b a' c x y hf hg hh)
  exact ⟨_, hasType_split_iff.2 ⟨a, b, a', c, x, y, hf, hg, hh, fits, rfl⟩⟩

/-- If the second grouping has a type then so does the first one. -/
theorem typed_joined
    (shown : ∀ a b a' c x y, p.HasType env f (.fn a b) → p.HasType env g (.fn a' c) →
      p.HasType env h (.fn x y) →
        a.compatible a' = true ∨ ∀ v ∈ y.vars, v ∈ x.vars ∧ y.count v ≤ 1)
    (typed : p.Typed env (.product k (.composition l f h u) (.composition m g h v) w)) :
    p.Typed env (.composition i (.product j f g r) h s) := by
  obtain ⟨t, typed⟩ := typed
  obtain ⟨a, b, a', c, x, y, hf, hg, hh, ⟨left, right, fits⟩, -⟩ := hasType_split_iff.1 typed
  have fits := Ty.compatible_collect left right fits (shown a b a' c x y hf hg hh)
  exact ⟨_, hasType_joined_iff.2 ⟨a, b, a', c, x, y, hf, hg, hh, fits, rfl⟩⟩

/-- The two groupings have one type. -/
theorem eq_of_hasType_distributed
    (distributes : ∀ a b a' c x y, p.HasType env f (.fn a b) → p.HasType env g (.fn a' c) →
      p.HasType env h (.fn x y) → Ty.Distributes a b a' c x y)
    (joined : p.HasType env (.composition i (.product j f g r) h s) t)
    (split : p.HasType env (.product k (.composition l f h u) (.composition m g h v) w) t') :
    t = t' := by
  obtain ⟨a, b, a', c, x, y, hf, hg, hh, ⟨-, joint⟩, rfl⟩ := hasType_joined_iff.1 joined
  obtain ⟨a₁, b₁, a₁', c₁, x₁, y₁, hf₁, hg₁, hh₁, -, rfl⟩ := hasType_split_iff.1 split
  obtain ⟨rfl, rfl⟩ := Ty.fn.inj (hf.unique hf₁)
  obtain ⟨rfl, rfl⟩ := Ty.fn.inj (hg.unique hg₁)
  obtain ⟨rfl, rfl⟩ := Ty.fn.inj (hh.unique hh₁)
  exact Ty.apply_distribute joint (distributes a b a' c x y hf hg hh)

/-- A product accepts nothing that its left branch refuses, and nothing that its right branch
refuses just if it has no variable where that one has none. -/
theorem HasType.accepts {a b a' c l m : Ty} (h : p.HasType env (.product i f g s) (.fn l m))
    (hf : p.HasType env f (.fn a b)) (hg : p.HasType env g (.fn a' c)) :
    (∀ t : Ty, t.compatible l = true → t.compatible a = true) ∧
      ((∀ t : Ty, t.compatible l = true → t.compatible a' = true) ↔ l.within a' = true) := by
  obtain ⟨a₁, b₁, a₁', c₁, hf', hg', -, same⟩ := hasType_product_iff.1 h
  obtain ⟨rfl, rfl⟩ := Ty.fn.inj (hf.unique hf')
  obtain ⟨rfl, rfl⟩ := Ty.fn.inj (hg.unique hg')
  obtain ⟨rfl, -⟩ := Ty.fn.inj same
  exact ⟨fun t ↦ Ty.compatible_of_kept, Ty.within_iff.symm⟩

end Program

/-- Two programs with the same declarations, one of them `(f × g) ∘ h` and the other
`(f ∘ h) × (g ∘ h)`, where `f : a -> b`, `g : a' -> c` and `h : x -> y`.

If the first one passes its check and `y` fits `a'`, then so does the second one, if no variable of
`x` occurs twice in `y`.  If the second one passes and `a` fits `a'`, then so does the first one;
for `a` to fit `a'` it is enough that each variable of `y` occurs there once and occurs in `x`.  If
both pass they have the same type where `Ty.Distributes` says so.  All of this holds if `a` is
`a'`.  What a product accepts its left branch accepts, and its right branch accepts it just if the
product has no variable where that branch has none. -/
theorem check_distributed {text text' : String} {p q d : Program} {f g h : Node}
    (parsed : Program.parse text = .ok p) (parsed' : Program.parse text' = .ok q)
    (joined : p.bare = { d with
      root := .composition 0 (.product 0 f g .nowhere) h .nowhere, span := .nowhere })
    (split : q.bare = { d with
      root := .product 0 (.composition 0 f h .nowhere) (.composition 0 g h .nowhere) .nowhere,
      span := .nowhere })
    (base : Environment) :
    let Types (a b a' c x y : Ty) : Prop :=
      d.HasType (d.environment base) f (.fn a b) ∧ d.HasType (d.environment base) g (.fn a' c) ∧
        d.HasType (d.environment base) h (.fn x y)
    ((∀ a b a' c x y, Types a b a' c x y →
        a = a' ∨ y.compatible a' = true ∧ ∀ v ∈ x.vars, y.count v ≤ 1) →
      (p.check base).success = true → (q.check base).success = true) ∧
    ((∀ a b a' c x y, Types a b a' c x y →
        a.compatible a' = true ∨ ∀ v ∈ y.vars, v ∈ x.vars ∧ y.count v ≤ 1) →
      (q.check base).success = true → (p.check base).success = true) ∧
    ((∀ a b a' c x y, Types a b a' c x y → Ty.Distributes a b a' c x y) →
      (p.check base).success = true → (q.check base).success = true →
        (p.check base).programType = (q.check base).programType) ∧
    ∀ a b a' c x y l m, Types a b a' c x y →
      d.HasType (d.environment base) (.product 0 f g .nowhere) (.fn l m) →
        (∀ t : Ty, t.compatible l = true → t.compatible a = true) ∧
          ((∀ t : Ty, t.compatible l = true → t.compatible a' = true) ↔ l.within a' = true) := by
  have wf := Program.wellFormed_of_parse parsed
  have wf' := Program.wellFormed_of_parse parsed'
  intro Types
  refine ⟨?_, ?_, ?_, ?_⟩
  · intro meets success
    obtain ⟨functors, typed⟩ := (wf.success_iff joined base).1 success
    refine (wf'.success_iff split base).2 ⟨functors, Program.typed_split ?_ typed⟩
    exact fun a b a' c x y hf hg hh ↦ meets a b a' c x y ⟨hf, hg, hh⟩
  · intro shown success
    obtain ⟨functors, typed⟩ := (wf'.success_iff split base).1 success
    refine (wf.success_iff joined base).2 ⟨functors, Program.typed_joined ?_ typed⟩
    exact fun a b a' c x y hf hg hh ↦ shown a b a' c x y ⟨hf, hg, hh⟩
  · intro distributes success success'
    obtain ⟨-, t, typed⟩ := (wf.success_iff joined base).1 success
    obtain ⟨-, t', typed'⟩ := (wf'.success_iff split base).1 success'
    rw [(wf.programType_iff joined success).2 typed, (wf'.programType_iff split success').2 typed',
      Program.eq_of_hasType_distributed (fun a b a' c x y hf hg hh ↦ ?_) typed typed']
    exact distributes a b a' c x y ⟨hf, hg, hh⟩
  · intro a b a' c x y l m types typed
    exact typed.accepts types.1 types.2.1

/-- Two branches that use the sides of a pair, composed with a task that yields the pair. -/
theorem check_distributed_of_pair :
    let declarations := "f :: (A × b) -> P\ng :: (a × b) -> Q\nh :: c -> A × B\n"
    ∃ p q, Program.parse (declarations ++ "(f × g) ∘ h") = .ok p ∧
      Program.parse (declarations ++ "(f ∘ h) × (g ∘ h)") = .ok q ∧
      (p.check .empty).success = (q.check .empty).success ∧
      (p.check .empty).programType = (q.check .empty).programType ∧
      (p.check .empty).programType =
        some (.fn (.var "c") (.prod (.mono "P") (.mono "Q"))) ∧
      ∀ t : Ty, t.compatible (.prod (.mono "A") (.var "b")) = true →
        t.compatible (.prod (.var "a") (.var "b")) = true := by
  intro declarations
  have parsed := Except.eq_ok_get
    (x := Program.parse (declarations ++ "(f × g) ∘ h")) (by decide +kernel)
  have parsed' := Except.eq_ok_get
    (x := Program.parse (declarations ++ "(f ∘ h) × (g ∘ h)")) (by decide +kernel)
  let task (name : String) : Node := .literal 0 name .nowhere
  let a : Ty := .prod (.mono "A") (.var "b")
  let a' : Ty := .prod (.var "a") (.var "b")
  let y : Ty := .prod (.mono "A") (.mono "B")
  let d : Program :=
    { signatures := [("f", .fn a (.mono "P")), ("g", .fn a' (.mono "Q")),
        ("h", .fn (.var "c") y)].map fun s ↦ (s.1, ⟨s.1, s.2, .nowhere⟩)
      functors := []
      root := task "f"
      span := .nowhere }
  have typed : ∀ {name t}, (d.environment .empty).get? name = some t →
      d.HasType (d.environment .empty) (task name) t.asFn := .task rfl
  have hf : d.HasType (d.environment .empty) (task "f") (.fn a (.mono "P")) :=
    typed (t := .fn a (.mono "P")) (by decide +kernel)
  have hg : d.HasType (d.environment .empty) (task "g") (.fn a' (.mono "Q")) :=
    typed (t := .fn a' (.mono "Q")) (by decide +kernel)
  have hh : d.HasType (d.environment .empty) (task "h") (.fn (.var "c") y) :=
    typed (t := .fn (.var "c") y) (by decide +kernel)
  -- what has to hold of the types of the three tasks is decided for the types that they have
  have settle {P : Ty → Ty → Ty → Ty → Ty → Ty → Prop}
      (holds : P a (.mono "P") a' (.mono "Q") (.var "c") y) :
      ∀ k l k' m x z, d.HasType (d.environment .empty) (task "f") (.fn k l) ∧
        d.HasType (d.environment .empty) (task "g") (.fn k' m) ∧
          d.HasType (d.environment .empty) (task "h") (.fn x z) → P k l k' m x z := by
    rintro _ _ _ _ _ _ ⟨hf', hg', hh'⟩
    obtain ⟨rfl, rfl⟩ := Ty.fn.inj (hf'.unique hf)
    obtain ⟨rfl, rfl⟩ := Ty.fn.inj (hg'.unique hg)
    obtain ⟨rfl, rfl⟩ := Ty.fn.inj (hh'.unique hh)
    exact holds
  obtain ⟨there, back, same, accepts⟩ := check_distributed (f := task "f") (g := task "g")
    (h := task "h") (d := d) parsed parsed' (by decide +kernel) (by decide +kernel) .empty
  refine ⟨_, _, parsed, parsed', Bool.eq_iff_iff.2 ⟨there ?_, back ?_⟩, same ?_ ?_ ?_, ?_, ?_⟩
  · exact settle (by decide)
  · exact settle (by decide)
  · exact settle (by decide)
  · decide +kernel
  · decide +kernel
  · decide +kernel
  · exact (accepts _ _ _ _ _ _ _ _ ⟨hf, hg, hh⟩ (hf.product hg (by decide))).2.2 (by decide)

/-- A composition can have a type on one side of the law and none on the other: because the product
accepts what its right branch refuses, because a variable occurs twice in what is yielded, and
because one that is yielded is not accepted.  And the two can have types that differ in more than
the names of variables, whichever condition of `Ty.Distributes` is given up: because a branch passes
on a variable that it accepts itself, or one that the other branch accepts, and because what is
composed with the product hands a variable through, which one of the branches then keeps in one
grouping only, or yields itself. -/
theorem distributing_matters :
    let types (f g h root : String) : Option (Option Ty) :=
      let source := "f :: " ++ f ++ "\ng :: " ++ g ++ "\nh :: " ++ h ++ "\n" ++ root
      (Program.parse source).toOption.map fun p ↦ (p.check .empty).programType
    let joined (f g h : String) := types f g h "(f × g) ∘ h"
    let split (f g h : String) := types f g h "(f ∘ h) × (g ∘ h)"
    let onlyJoined (f g h : String) : Prop :=
      ∃ t, joined f g h = some (some t) ∧ split f g h = some none
    let onlySplit (f g h : String) : Prop :=
      ∃ t, joined f g h = some none ∧ split f g h = some (some t)
    let differ (f g h : String) : Prop := ∃ t u,
      joined f g h = some (some t) ∧ split f g h = some (some u) ∧
        ∀ r, t.rename r ≠ u ∧ u.rename r ≠ t
    (onlyJoined "(a × X) -> P" "(Y × b) -> Q" "D -> Z × X" ∧
      onlyJoined "(a × Q) -> P" "((R × P) × Q) -> Q" "x -> ((x × P) × x)") ∧
    (onlySplit "P -> P" "Q -> Q" "() -> x" ∧
      onlySplit "(P × P) -> P" "(P × Q) -> Q" "x -> (x × x)") ∧
    (differ "(a × X) -> a" "(b × X) -> Q" "() -> (P × X)" ∧
      differ "a -> Q" "b -> b" "() -> P" ∧
      differ "a -> a" "P -> Q" "() -> e" ∧ differ "P -> Q" "a -> a" "() -> e") ∧
    (differ "a -> b" "(b × X) -> Q" "() -> (P × X)" ∧
      differ "(a × X) -> P" "(b × X) -> a" "() -> (Q × X)") ∧
    differ "a -> P" "(Q × P) -> Q" "(e × e) -> (e × P)" ∧
      differ "a -> e" "(Q × b) -> R" "e -> (e × X)" ∧
      differ "(Q × b) -> R" "a -> e" "e -> (e × X)" := by
  intro types joined split onlyJoined onlySplit differ
  let both (t : Ty) : Ty := .fn t (.prod (.mono "P") (.mono "Q"))
  refine ⟨⟨⟨both (.mono "D"), ?_, ?_⟩, both (.mono "Q"), ?_, ?_⟩,
    ⟨⟨both .unit, ?_, ?_⟩, both (.mono "P"), ?_, ?_⟩, ⟨?_, ?_, ?_, ?_⟩, ⟨?_, ?_⟩, ?_, ?_, ?_⟩
  · decide +kernel
  · decide +kernel
  · decide +kernel
  · decide +kernel
  · decide +kernel
  · decide +kernel
  · decide +kernel
  · decide +kernel
  · refine ⟨.fn .unit (.prod (.var "b") (.mono "Q")),
      both .unit, ?_, ?_, ?_⟩
    · decide +kernel
    · decide +kernel
    · simp [both, Ty.rename]
  · refine ⟨.fn .unit (.prod (.mono "Q") (.var "a")),
      .fn .unit (.prod (.mono "Q") (.mono "P")), ?_, ?_, ?_⟩
    · decide +kernel
    · decide +kernel
    · simp [Ty.rename]
  · refine ⟨both .unit,
      .fn .unit (.prod (.var "e") (.mono "Q")), ?_, ?_, ?_⟩
    · decide +kernel
    · decide +kernel
    · simp [both, Ty.rename]
  · refine ⟨.fn .unit (.prod (.mono "Q") (.mono "P")),
      .fn .unit (.prod (.mono "Q") (.var "e")), ?_, ?_, ?_⟩
    · decide +kernel
    · decide +kernel
    · simp [Ty.rename]
  · refine ⟨both .unit,
      .fn .unit (.prod (.var "b") (.mono "Q")), ?_, ?_, ?_⟩
    · decide +kernel
    · decide +kernel
    · simp [both, Ty.rename]
  · refine ⟨both .unit,
      .fn .unit (.prod (.mono "P") (.var "a")), ?_, ?_, ?_⟩
    · decide +kernel
    · decide +kernel
    · simp [both, Ty.rename]
  · refine ⟨both (.prod (.mono "Q") (.mono "Q")),
      both (.prod (.var "e") (.var "e")), ?_, ?_, ?_⟩
    · decide +kernel
    · decide +kernel
    · simp [both, Ty.rename]
  · refine ⟨.fn (.mono "Q") (.prod (.var "e") (.mono "R")),
      .fn (.mono "Q") (.prod (.mono "Q") (.mono "R")), ?_, ?_, ?_⟩
    · decide +kernel
    · decide +kernel
    · simp [Ty.rename]
  · refine ⟨.fn (.mono "Q") (.prod (.mono "R") (.var "e")),
      .fn (.mono "Q") (.prod (.mono "R") (.mono "Q")), ?_, ?_, ?_⟩
    · decide +kernel
    · decide +kernel
    · simp [Ty.rename]

end Taskflow
