import Mathlib.Data.List.Nodup
import Taskflow.Proofs.Typing.Matching

/-!
# Instances of types

A variable stands for anything, and so does each of its occurrences by itself.  What a type stands
for are its instances, in which every occurrence has made room for some type (`Ty.HasInstance`), and
two types are compatible if and only if they have one in common (`compatible_iff_hasInstance`).

A substitution makes an instance in which all occurrences of a variable have made room for the same.
Matching finds out what that is: a type that is matched with such an instance records what the
substitution does to its variables, and that alone (`bind_apply_spec`).  On the way there is more in
the substitution than at the beginning, so what matching does is said of any substitution: it adds
what variables meet, once for each variable and behind everything else (`bind_adds`).
-/

namespace Taskflow

namespace Ty

/-- Whether a type results from another one when each occurrence of a variable is replaced by some
type, whatever the other occurrences are replaced by. -/
inductive HasInstance : Ty → Ty → Prop
  | mono {a} : HasInstance (.mono a) (.mono a)
  | var {a t} : HasInstance (.var a) t
  | fn {a b a' b'} : HasInstance a a' → HasInstance b b' → HasInstance (.fn a b) (.fn a' b')
  | prod {a b a' b'} : HasInstance a a' → HasInstance b b' → HasInstance (.prod a b) (.prod a' b')
  | unit : HasInstance .unit .unit

/-- The parts of a type, itself included. -/
def parts : Ty → List Ty
  | .fn a b => .fn a b :: (a.parts ++ b.parts)
  | .prod a b => .prod a b :: (a.parts ++ b.parts)
  | t => [t]

end Ty

/-- Whether `s'` is `s` with further entries behind it, each for a variable that had none, and all
of them such that `P` holds. -/
def Substitution.Adds (P : String → Ty → Prop) (s s' : Substitution) : Prop :=
  ∃ new, s' = s ++ new ∧ (new.map (·.1)).Nodup ∧ ∀ e ∈ new, s.lookup e.1 = none ∧ P e.1 e.2

namespace Ty

/-! ## Common instances -/

theorem HasInstance.refl (t : Ty) : t.HasInstance t := by
  induction t with
  | mono => exact .mono
  | var => exact .var
  | fn _ _ ihA ihB => exact .fn ihA ihB
  | prod _ _ ihA ihB => exact .prod ihA ihB
  | unit => exact .unit

/-- Types with a common instance are compatible. -/
theorem HasInstance.compatible {a b t : Ty} (ha : a.HasInstance t) (hb : b.HasInstance t) :
    a.compatible b = true := by
  induction ha generalizing b with
  | var => rfl
  | mono | unit =>
    cases hb with
    | var => rfl
    | _ => simp [Ty.compatible]
  | fn _ _ ihA ihB =>
    cases hb with
    | var => rfl
    | fn hA hB => rw [Ty.compatible, ihA hA, ihB hB, Bool.and_true]
  | prod _ _ ihA ihB =>
    cases hb with
    | var => rfl
    | prod hA hB => rw [Ty.compatible, ihA hA, ihB hB, Bool.and_true]

/-- Compatible types have a common instance: where one of them ends in a variable, it takes what the
other one has there. -/
theorem exists_hasInstance_of_compatible {a b : Ty} (h : a.compatible b = true) :
    ∃ t, a.HasInstance t ∧ b.HasInstance t := by
  fun_induction compatible a b with
  | case1 => exact ⟨_, .var, .refl _⟩
  | case2 => exact ⟨_, .refl _, .var⟩
  | case3 => exact ⟨_, .unit, .unit⟩
  | case4 =>
    obtain rfl := beq_iff_eq.1 h
    exact ⟨_, .mono, .mono⟩
  | case5 a b a' b' ihA ihB =>
    rw [Bool.and_eq_true] at h
    obtain ⟨t, hA, hA'⟩ := ihA h.1
    obtain ⟨u, hB, hB'⟩ := ihB h.2
    exact ⟨.fn t u, .fn hA hB, .fn hA' hB'⟩
  | case6 a b a' b' ihA ihB =>
    rw [Bool.and_eq_true] at h
    obtain ⟨t, hA, hA'⟩ := ihA h.1
    obtain ⟨u, hB, hB'⟩ := ihB h.2
    exact ⟨.prod t u, .prod hA hB, .prod hA' hB'⟩
  | case7 => cases h

/-- Two types are compatible if and only if they have a common instance.  So every type is
compatible with itself, it does not matter which of two types comes first, and types without
variables are compatible only if they are equal. -/
theorem compatible_iff_hasInstance (a b : Ty) :
    (a.compatible b = true ↔ ∃ t, a.HasInstance t ∧ b.HasInstance t) ∧
      a.compatible a = true ∧ a.compatible b = b.compatible a ∧
      (a.vars = [] → b.vars = [] → (a.compatible b = true ↔ a = b)) := by
  refine ⟨⟨exists_hasInstance_of_compatible, ?_⟩, compatible_self a, compatible_comm a b, ?_⟩
  · rintro ⟨t, ha, hb⟩
    exact ha.compatible hb
  · intro groundA groundB
    refine ⟨eq_of_compatible groundA groundB, ?_⟩
    rintro rfl
    exact compatible_self a

/-- Both occurrences of a variable are replaced, by different types, one of which has the variable
again; and two types without variables. -/
theorem compatible_iff_hasInstance_of_repeated :
    let pair : Ty := .prod (.var "a") (.var "a")
    let actual : Ty := .prod (.fn (.mono "A") (.var "a")) .unit
    pair.compatible actual = true ∧ (∃ t, pair.HasInstance t ∧ actual.HasInstance t) ∧
      (∀ s s', pair.apply s ≠ actual.apply s') ∧
      ¬ (mono "A").compatible (mono "B") = true := by
  intro pair actual
  refine ⟨by decide, (compatible_iff_hasInstance pair actual).1.1 (by decide), ?_, ?_⟩
  · intro s s' same
    obtain ⟨left, right⟩ := Ty.prod.inj same
    cases left.symm.trans right
  · intro fits
    have same := ((compatible_iff_hasInstance (.mono "A") (.mono "B")).2.2.2 rfl rfl).1 fits
    exact absurd same (by decide)

end Ty

/-! ## What matching adds -/

namespace Substitution.Adds

variable {P Q : String → Ty → Prop} {s s' s'' : Substitution}

theorem refl (s : Substitution) : s.Adds P s :=
  ⟨[], (List.append_nil s).symm, List.nodup_nil, nofun⟩

theorem imp (h : s.Adds P s') (imp : ∀ x u, P x u → Q x u) : s.Adds Q s' := by
  obtain ⟨new, same, nodup, fresh⟩ := h
  exact ⟨new, same, nodup, fun e he ↦ (fresh e he).imp_right (imp e.1 e.2)⟩

theorem trans (h : s.Adds P s') (h' : s'.Adds P s'') : s.Adds P s'' := by
  obtain ⟨new, rfl, nodup, fresh⟩ := h
  obtain ⟨new', rfl, nodup', fresh'⟩ := h'
  have fresh' (e) (he : e ∈ new') : s.lookup e.1 = none ∧ new.lookup e.1 = none ∧ P e.1 e.2 := by
    obtain ⟨none, holds⟩ := fresh' e he
    rw [List.lookup_append, Option.or_eq_none_iff] at none
    exact ⟨none.1, none.2, holds⟩
  refine ⟨new ++ new', List.append_assoc .., ?_, fun e he ↦ ?_⟩
  · rw [List.map_append, List.nodup_append']
    refine ⟨nodup, nodup', fun x hx hx' ↦ ?_⟩
    obtain ⟨e, he, rfl⟩ := List.mem_map.1 hx'
    exact lookup_eq_none_iff_notMem.1 (fresh' e he).2.1 hx
  · rcases List.mem_append.1 he with he | he
    · exact fresh e he
    · exact ⟨(fresh' e he).1, (fresh' e he).2.2⟩

/-- What is found is found in the new entries only if `P` holds of it. -/
theorem of_lookup (h : s.Adds P s') {x : String} {u : Ty} (found : s'.lookup x = some u) :
    s.lookup x = some u ∨ P x u := by
  obtain ⟨new, rfl, -, fresh⟩ := h
  rw [List.lookup_append, Option.or_eq_some_iff] at found
  exact found.imp_right fun found ↦ (fresh _ (mem_of_lookup_eq_some found.2)).2

theorem bindNew {x : String} {u : Ty} (holds : P x u) : s.Adds P (s.bindNew x u) := by
  rw [Substitution.bindNew]
  split
  next => exact refl s
  next unbound =>
    refine ⟨[(x, u)], rfl, List.nodup_singleton x, fun e he ↦ ?_⟩
    obtain rfl := List.mem_singleton.1 he
    exact ⟨Option.not_isSome_iff_eq_none.1 unbound, holds⟩

end Substitution.Adds

namespace Ty

/-- Matching adds what variables meet, unless they meet themselves. -/
theorem bind_adds (p t : Ty) (s : Substitution) :
    s.Adds (fun x u ↦ (x, u) ∈ p.meetings t ∧ u ≠ .var x) (p.bind t s) := by
  induction p generalizing t s with
  | mono | unit => exact .refl s
  | var a =>
    rw [bind]
    split
    next => exact .refl s
    next differ => exact .bindNew ⟨List.mem_singleton.2 rfl, differ⟩
  | fn a b ihA ihB =>
    cases t with
    | fn a' b' =>
      refine .trans ((ihA a' s).imp fun x u met ↦ ?_) ((ihB b' _).imp fun x u met ↦ ?_)
      · exact met.imp_left (List.mem_append_left _)
      · exact met.imp_left (List.mem_append_right _)
    | _ => exact .refl s
  | prod a b ihA ihB =>
    cases t with
    | prod a' b' =>
      refine .trans ((ihA a' s).imp fun x u met ↦ ?_) ((ihB b' _).imp fun x u met ↦ ?_)
      · exact met.imp_left (List.mem_append_left _)
      · exact met.imp_left (List.mem_append_right _)
    | _ => exact .refl s

@[simp] theorem mem_parts_self (t : Ty) : t ∈ t.parts := by
  cases t <;> simp [parts]

/-- What a variable meets in a type is a part of it. -/
theorem mem_parts_of_mem_meetings {p t u : Ty} {x : String} (h : (x, u) ∈ p.meetings t) :
    u ∈ t.parts := by
  induction p generalizing t with
  | mono | unit => cases t <;> cases h
  | var a =>
    obtain ⟨-, rfl⟩ := Prod.mk.inj (List.mem_singleton.1 h)
    exact mem_parts_self u
  | fn a b ihA ihB =>
    cases t with
    | fn a' b' =>
      rw [parts, List.mem_cons, List.mem_append]
      exact .inr ((List.mem_append.1 h).imp ihA ihB)
    | _ => cases h
  | prod a b ihA ihB =>
    cases t with
    | prod a' b' =>
      rw [parts, List.mem_cons, List.mem_append]
      exact .inr ((List.mem_append.1 h).imp ihA ihB)
    | _ => cases h

/-! ## Matching with an instance -/

/-- In what a substitution makes of a type, a variable meets what the substitution replaces it
by. -/
theorem mem_meetings_apply_iff {p u : Ty} {s : Substitution} {x : String} :
    (x, u) ∈ p.meetings (p.apply s) ↔ x ∈ p.vars ∧ (var x).apply s = u := by
  induction p with
  | mono | unit => exact iff_of_false nofun nofun
  | var a =>
    rw [meetings, List.mem_singleton, mem_vars_var, Prod.mk.injEq]
    refine and_congr_right fun same ↦ ?_
    rw [same, eq_comm]
  | fn a b ihA ihB =>
    change (x, u) ∈ a.meetings (a.apply s) ++ b.meetings (b.apply s) ↔ _
    rw [List.mem_append, ihA, ihB, mem_vars_fn, or_and_right]
  | prod a b ihA ihB =>
    change (x, u) ∈ a.meetings (a.apply s) ++ b.meetings (b.apply s) ↔ _
    rw [List.mem_append, ihA, ihB, mem_vars_prod, or_and_right]

/-- Only what a substitution does to the variables of a type matters. -/
theorem apply_congr {t : Ty} {s s' : Substitution}
    (h : ∀ x ∈ t.vars, (var x).apply s = (var x).apply s') : t.apply s = t.apply s' := by
  induction t with
  | mono | unit => rfl
  | var a => exact h a (mem_vars_var.2 rfl)
  | fn a b ihA ihB =>
    rw [apply, apply, ihA fun x mem ↦ h x (mem_vars_fn.2 (.inl mem)),
      ihB fun x mem ↦ h x (mem_vars_fn.2 (.inr mem))]
  | prod a b ihA ihB =>
    rw [apply, apply, ihA fun x mem ↦ h x (mem_vars_prod.2 (.inl mem)),
      ihB fun x mem ↦ h x (mem_vars_prod.2 (.inr mem))]

/-- Matching a type with what a substitution makes of it records what becomes of each of its
variables, unless the variable stays. -/
theorem lookup_bind_apply_iff {p u : Ty} {s : Substitution} {x : String} :
    (p.bind (p.apply s) []).lookup x = some u ↔
      x ∈ p.vars ∧ (var x).apply s = u ∧ u ≠ .var x := by
  have recorded {v : Ty} (found : (p.bind (p.apply s) []).lookup x = some v) :
      x ∈ p.vars ∧ (var x).apply s = v ∧ v ≠ .var x := by
    obtain none | ⟨met, moves⟩ := (p.bind_adds (p.apply s) []).of_lookup found
    · cases none
    · obtain ⟨mem, same⟩ := mem_meetings_apply_iff.1 met
      exact ⟨mem, same, moves⟩
  refine ⟨recorded, ?_⟩
  rintro ⟨mem, rfl, moves⟩
  cases found : (p.bind (p.apply s) []).lookup x with
  | none => exact (moves ((eq_var_of_lookup found).2 (mem_meetings_apply_iff.2 ⟨mem, rfl⟩))).elim
  | some v => rw [(recorded found).2.1]

/-- What is recorded is enough to make the same of the type. -/
theorem apply_bind_apply (p : Ty) (s : Substitution) :
    p.apply (p.bind (p.apply s) []) = p.apply s := by
  refine apply_congr fun x mem ↦ ?_
  rw [apply]
  cases found : (p.bind (p.apply s) []).lookup x with
  | none =>
    -- what is not recorded stays as it is
    exact ((eq_var_of_lookup found).2 (mem_meetings_apply_iff.2 ⟨mem, rfl⟩)).symm
  | some u => exact (lookup_bind_apply_iff.1 found).2.1.symm

/-- A type that is matched with what a substitution makes of it records what becomes of each of its
variables that does not stay, and nothing else; and what is recorded makes the same of it.  Whatever
two types are matched, and whatever is recorded already, all of that stays, and the entries behind
it are for variables of the first type that had none, each with a part of the second type. -/
theorem bind_apply_spec (p : Ty) (s : Substitution) :
    (∀ x u, (p.bind (p.apply s) []).lookup x = some u ↔
      x ∈ p.vars ∧ (var x).apply s = u ∧ u ≠ .var x) ∧
    p.apply (p.bind (p.apply s) []) = p.apply s ∧
    ∀ t (start : Substitution),
      start.Adds (fun x u ↦ x ∈ p.vars ∧ u ∈ t.parts) (p.bind t start) := by
  refine ⟨fun x u ↦ lookup_bind_apply_iff, p.apply_bind_apply s, fun t start ↦ ?_⟩
  refine (p.bind_adds t start).imp fun x u ⟨met, _⟩ ↦ ?_
  exact ⟨(vars_of_mem_meetings met).1, mem_parts_of_mem_meetings met⟩

/-- Two variables that are replaced by each other, one of them twice and within a type, beside one
that stays; and a start at which one of them has an entry. -/
theorem bind_apply_spec_of_exchange :
    let p : Ty := .fn (.prod (.var "a") (.var "b")) (.prod (.var "c") (.var "a"))
    let s : Substitution := [("a", .var "b"), ("b", .prod (.var "a") .unit), ("c", .var "c")]
    let t : Ty := .fn (.prod (.var "b") (.prod (.var "a") .unit)) (.prod (.var "c") (.var "b"))
    let start : Substitution := [("a", .unit)]
    p.apply s = t ∧ (p.bind t []).lookup "a" = some (.var "b") ∧
      (p.bind t []).lookup "c" = none ∧ p.apply (p.bind t []) = t ∧
      start.Adds (fun x u ↦ x ∈ p.vars ∧ u ∈ t.parts) (p.bind t start) := by
  intro p s t start
  have same : p.apply s = t := by decide
  obtain ⟨recorded, enough, added⟩ := bind_apply_spec p s
  rw [same] at recorded enough
  refine ⟨same, (recorded "a" _).2 (by decide), ?_, enough, added t start⟩
  refine Option.eq_none_iff_forall_ne_some.2 fun u found ↦ ?_
  obtain ⟨-, rfl, moves⟩ := (recorded "c" u).1 found
  exact moves rfl

end Ty

end Taskflow
