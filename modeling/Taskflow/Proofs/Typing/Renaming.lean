import Taskflow.Proofs.Typing.Exactness
import Taskflow.Proofs.Typing.Matching

/-!
# Renaming variables

Variables are known by their names, and a name means the same in every signature.  So other names
for the variables of all signatures change nothing, as long as different variables keep different
names: matching and substitution go along (`Ty.apply_bind_rename`), and so does every typing rule
(`Program.Renamed.hasType`).  The variables of one signature can be given other names by themselves
if none of the old and new names that differ occurs in another signature (`Program.RenamesApart`);
then this is a renaming of all signatures, and `check_renamed` says what it does to a report.

If such a name does occur elsewhere then two variables become one, or one becomes two, and a
program can pass its check before or after that alone (`sharing_matters`).
-/

namespace Taskflow

variable {g : String → String} {V : Set String}

/-- A substitution with other names for the variables on both sides. -/
def Substitution.rename (g : String → String) (s : Substitution) : Substitution :=
  s.map fun e ↦ (g e.1, e.2.rename g)

/-- Whether all variables of a type are in `V`. -/
def Ty.VarsIn (V : Set String) (t : Ty) : Prop := ∀ x ∈ t.vars, x ∈ V

/-- Whether all variables that a substitution binds are in `V`. -/
def Substitution.BindsIn (V : Set String) (s : Substitution) : Prop := ∀ e ∈ s, e.1 ∈ V

namespace Ty

/-- Whether the second type is the first one with the names that `g` gives to its variables,
different ones to different variables. -/
def RenamesTo (g : String → String) (t u : Ty) : Prop := t.Separates g ∧ t.rename g = u

/-! ## Types -/

theorem varsIn_var {x : String} : (var x).VarsIn V ↔ x ∈ V := by
  simp [VarsIn]

theorem varsIn_fn {a b : Ty} : (fn a b).VarsIn V ↔ a.VarsIn V ∧ b.VarsIn V := by
  simp only [VarsIn, mem_vars_fn, or_imp, forall_and]

theorem varsIn_prod {a b : Ty} : (prod a b).VarsIn V ↔ a.VarsIn V ∧ b.VarsIn V := by
  simp only [VarsIn, mem_vars_prod, or_imp, forall_and]

/-- A type read as a function has no other variables. -/
theorem varsIn_asFn {t : Ty} : t.asFn.VarsIn V ↔ t.VarsIn V := by
  cases t with
  | fn => rfl
  | _ =>
    rw [asFn, varsIn_fn]
    exact and_iff_right nofun

/-- Matching brings in no variables. -/
theorem VarsIn.apply_bind {a b c : Ty} (ha : a.VarsIn V) (hc : c.VarsIn V) :
    (a.apply (b.bind c [])).VarsIn V := by
  intro x mem
  exact (mem_vars_apply_bind mem).elim (ha x) (hc x)

/-- On the variables of such a type the new names differ as the old ones do. -/
theorem VarsIn.separates {t : Ty} (inV : t.VarsIn V) (inj : V.InjOn g) : t.Separates g := by
  intro x hx y hy same
  exact inj (inV x hx) (inV y hy) same

@[simp] theorem isVar_rename (t : Ty) : (t.rename g).isVar = t.isVar := by
  cases t <;> rfl

@[simp] theorem asFn_rename (t : Ty) : (t.rename g).asFn = t.asFn.rename g := by
  cases t <;> rfl

/-- What fits does not depend on the names of variables. -/
@[simp] theorem compatible_rename (a b : Ty) :
    (a.rename g).compatible (b.rename g) = a.compatible b := by
  induction a generalizing b with
  | mono | var | unit => cases b <;> rfl
  | fn a a' ih ih' | prod a a' ih ih' =>
    cases b with
    | fn | prod => simp [rename, compatible, ih, ih']
    | _ => rfl

/-- Only the new names of the variables of a type matter. -/
theorem rename_congr {r : String → String} {t : Ty} (h : ∀ x ∈ t.vars, g x = r x) :
    t.rename g = t.rename r := by
  induction t with
  | mono | unit => rfl
  | var a => rw [rename, rename, h a (mem_vars_var.2 rfl)]
  | fn a b ihA ihB =>
    rw [rename, rename, ihA fun x mem ↦ h x (mem_vars_fn.2 (.inl mem)),
      ihB fun x mem ↦ h x (mem_vars_fn.2 (.inr mem))]
  | prod a b ihA ihB =>
    rw [rename, rename, ihA fun x mem ↦ h x (mem_vars_prod.2 (.inl mem)),
      ihB fun x mem ↦ h x (mem_vars_prod.2 (.inr mem))]

/-- Types that may be missing differ in the names of variables if what is known of one is what is
known of the other with new names. -/
theorem rel_of_iff {t t' : Option Ty} (h : ∀ u, t' = some u ↔ ∃ v, t = some v ∧ v.rename g = u)
    (separates : ∀ v, t = some v → v.Separates g) : Option.Rel (RenamesTo g) t t' := by
  cases t with
  | none =>
    have none : t' = Option.none :=
      Option.eq_none_iff_forall_ne_some.2 fun u found ↦ by
        obtain ⟨v, ⟨⟩, -⟩ := (h u).1 found
    rw [none]
    exact .none
  | some v =>
    rw [(h (v.rename g)).2 ⟨v, rfl, rfl⟩]
    exact .some ⟨separates v rfl, rfl⟩

/-! ## Substitutions -/

section Substitutions

variable (inj : V.InjOn g)
include inj

/-- A variable is found under its new name. -/
theorem lookup_rename {s : Substitution} (binds : s.BindsIn V) {x : String} (hx : x ∈ V) :
    (s.rename g).lookup (g x) = (s.lookup x).map (rename g) := by
  induction s with
  | nil => rfl
  | cons e rest ih =>
    obtain ⟨first, binds⟩ := List.forall_mem_cons.1 binds
    have same : g x = g e.1 ↔ x = e.1 := ⟨inj hx first, congrArg g⟩
    rw [Substitution.rename, List.map_cons, lookup_cons_eq_ite, lookup_cons_eq_ite,
      ite_congr (propext same) (fun _ ↦ rfl) fun _ ↦ rfl]
    split
    · rfl
    · exact ih binds

/-- Replacing and renaming can be exchanged. -/
theorem apply_rename {s : Substitution} {t : Ty} (binds : s.BindsIn V) (ht : t.VarsIn V) :
    (t.rename g).apply (s.rename g) = (t.apply s).rename g := by
  induction t with
  | mono | unit => rfl
  | var a =>
    rw [rename, apply, apply, lookup_rename inj binds (varsIn_var.1 ht)]
    cases s.lookup a <;> rfl
  | fn a b ihA ihB =>
    rw [varsIn_fn] at ht
    rw [rename, apply, apply, rename, ihA ht.1, ihB ht.2]
  | prod a b ihA ihB =>
    rw [varsIn_prod] at ht
    rw [rename, apply, apply, rename, ihA ht.1, ihB ht.2]

theorem bindNew_rename {s : Substitution} {x : String} {t : Ty} (binds : s.BindsIn V) (hx : x ∈ V) :
    (s.rename g).bindNew (g x) (t.rename g) = (s.bindNew x t).rename g := by
  rw [Substitution.bindNew, Substitution.bindNew, lookup_rename inj binds hx, Option.isSome_map]
  split
  · rfl
  · rw [Substitution.rename, Substitution.rename, List.map_append, List.map_singleton]

/-- Matching and renaming can be exchanged, and matching binds no other variables. -/
theorem bind_rename {a t : Ty} {s : Substitution} (binds : s.BindsIn V) (ha : a.VarsIn V)
    (ht : t.VarsIn V) :
    (a.rename g).bind (t.rename g) (s.rename g) = (a.bind t s).rename g ∧
      (a.bind t s).BindsIn V := by
  induction a generalizing t s with
  | mono | unit => exact ⟨rfl, binds⟩
  | var a =>
    rw [varsIn_var] at ha
    have same : t.rename g = .var (g a) ↔ t = .var a := by
      cases t with
      | var b => simpa [rename] using ⟨inj (varsIn_var.1 ht) ha, congrArg g⟩
      | _ => simp [rename]
    rw [rename, bind, bind, ite_congr (propext same) (fun _ ↦ rfl) fun _ ↦ rfl]
    split
    · exact ⟨rfl, binds⟩
    · refine ⟨bindNew_rename inj binds ha, ?_⟩
      rw [Substitution.bindNew]
      split
      · exact binds
      · exact List.forall_mem_append.2 ⟨binds, List.forall_mem_singleton.2 ha⟩
  | fn a b ihA ihB =>
    cases t with
    | fn a' b' =>
      rw [varsIn_fn] at ha ht
      obtain ⟨first, binds⟩ := ihA binds ha.1 ht.1
      rw [rename, rename, bind, bind, first]
      exact ihB binds ha.2 ht.2
    | _ => exact ⟨rfl, binds⟩
  | prod a b ihA ihB =>
    cases t with
    | prod a' b' =>
      rw [varsIn_prod] at ha ht
      obtain ⟨first, binds⟩ := ihA binds ha.1 ht.1
      rw [rename, rename, bind, bind, first]
      exact ihB binds ha.2 ht.2
    | _ => exact ⟨rfl, binds⟩

/-- What matching makes of a type goes along with new names for all variables. -/
theorem apply_bind_rename {a b c : Ty} (ha : a.VarsIn V) (hb : b.VarsIn V) (hc : c.VarsIn V) :
    (a.rename g).apply ((b.rename g).bind (c.rename g) []) = (a.apply (b.bind c [])).rename g := by
  obtain ⟨same, binds⟩ := bind_rename inj (s := []) nofun hb hc
  rw [← apply_rename inj binds ha, ← same]
  rfl

end Substitutions

end Ty

namespace Program

variable {p q : Program} {env env' : Environment}

/-! ## Typing -/

/-- Whether a program refers to a task of that name. -/
def Refers (p : Program) (name : String) : Prop :=
  (∃ id span, Node.literal id name span ∈ p.nodes) ∧ p.functorBody name = none

/-- Whether a program refers to the task `name` and a variable occurs in the type of that task. -/
def Owns (p : Program) (env : Environment) (name x : String) : Prop :=
  p.Refers name ∧ ∃ t, env.get? name = some t ∧ x ∈ t.vars

/-- The variables in the types of the tasks that a program refers to. -/
def vars (p : Program) (env : Environment) : Set String := {x | ∃ name, p.Owns env name x}

/-- The type of a node has no variables but those of tasks. -/
theorem HasType.varsIn (wf : p.WellFormed) {n : Node} {t : Ty} (hn : n ∈ p.nodes)
    (h : p.HasType env n t) : t.VarsIn (p.vars env) := by
  induction h with
  | task none found =>
    rw [Ty.varsIn_asFn]
    exact fun x mem ↦ ⟨_, ⟨⟨_, _, hn⟩, none⟩, _, found, mem⟩
  | named found _ ih => exact ih (wf.body_mem_nodes hn found)
  | composition _ _ _ ihInner ihOuter =>
    obtain ⟨hOuter, hInner⟩ := wf.operands_mem_nodes hn
    have inner := ihInner hInner
    have outer := ihOuter hOuter
    rw [Ty.varsIn_fn] at inner outer ⊢
    exact ⟨inner.1.apply_bind outer.1, outer.2.apply_bind inner.2⟩
  | product _ _ _ ihLeft ihRight =>
    obtain ⟨hLeft, hRight⟩ := wf.branches_mem_nodes hn
    have left := ihLeft hLeft
    have right := ihRight hRight
    rw [Ty.varsIn_fn] at left right
    rw [Ty.varsIn_fn, Ty.varsIn_prod]
    refine ⟨?_, left.2.apply_bind right.1, right.2.apply_bind left.1⟩
    split
    · exact right.1
    · exact left.1
  | functor _ ih => exact ih (wf.declared_mem_nodes hn)

/-- Two programs with the same functors and the same root, in environments that say the same of the
tasks that they refer to, up to other names for the variables of all of them. -/
structure Renamed (p : Program) (env : Environment) (q : Program) (env' : Environment)
    (g : String → String) : Prop where
  functors : q.functors = p.functors
  root : q.root = p.root
  tasks : ∀ name, p.Refers name → env'.get? name = (env.get? name).map (Ty.rename g)
  inj : (p.vars env).InjOn g

namespace Renamed

variable (same : p.Renamed env q env' g)
include same

theorem functorBody_eq : q.functorBody = p.functorBody := by
  funext name
  rw [functorBody, functorBody, same.functors]

theorem nodes_eq : q.nodes = p.nodes := by
  rw [nodes, nodes, same.functors, same.root]

theorem wellFormed (wf : p.WellFormed) : q.WellFormed where
  entry := same.functors ▸ wf.entry
  root := same.root ▸ wf.root
  distinct := same.functors ▸ wf.distinct
  backward := same.functors ▸ wf.backward
  irreflexive := same.functors ▸ wf.irreflexive
  ids := same.nodes_eq ▸ wf.ids
  extents := same.nodes_eq ▸ wf.extents

/-- A node has its type with the new names. -/
theorem hasType (wf : p.WellFormed) {n : Node} {t : Ty} (hn : n ∈ p.nodes)
    (h : p.HasType env n t) : q.HasType env' n (t.rename g) := by
  induction h with
  | task none found =>
    rw [← Ty.asFn_rename]
    refine .task (same.functorBody_eq ▸ none) ?_
    rw [same.tasks _ ⟨⟨_, _, hn⟩, none⟩, found, Option.map_some]
  | named found _ ih =>
    exact .named (same.functorBody_eq ▸ found) (ih (wf.body_mem_nodes hn found))
  | composition inner outer fits ihInner ihOuter =>
    obtain ⟨hOuter, hInner⟩ := wf.operands_mem_nodes hn
    obtain ⟨ha, hb⟩ := Ty.varsIn_fn.1 (inner.varsIn wf hInner)
    obtain ⟨hb', hc⟩ := Ty.varsIn_fn.1 (outer.varsIn wf hOuter)
    rw [Ty.rename, ← Ty.apply_bind_rename same.inj ha hb hb',
      ← Ty.apply_bind_rename same.inj hc hb' hb]
    exact .composition (ihInner hInner) (ihOuter hOuter) ((Ty.compatible_rename ..).trans fits)
  | @product _ _ _ _ a b a' c left right fits ihLeft ihRight =>
    obtain ⟨hLeft, hRight⟩ := wf.branches_mem_nodes hn
    obtain ⟨ha, hb⟩ := Ty.varsIn_fn.1 (left.varsIn wf hLeft)
    obtain ⟨ha', hc⟩ := Ty.varsIn_fn.1 (right.varsIn wf hRight)
    rw [Ty.rename, Ty.rename, ← Ty.apply_bind_rename same.inj hb ha ha',
      ← Ty.apply_bind_rename same.inj hc ha' ha, apply_ite (Ty.rename g),
      ← Ty.isVar_rename (g := g) a]
    exact .product (ihLeft hLeft) (ihRight hRight) ((Ty.compatible_rename ..).trans fits)
  | functor _ ih => exact .functor (ih (wf.declared_mem_nodes hn))

/-- A node that has a type with the new names has one with the old names. -/
theorem typed_of_hasType (wf : p.WellFormed) {n : Node} {u : Ty} (hn : n ∈ p.nodes)
    (h : q.HasType env' n u) : p.Typed env n := by
  induction h with
  | @task _ name _ _ none found =>
    rw [same.functorBody_eq] at none
    rw [same.tasks name ⟨⟨_, _, hn⟩, none⟩, Option.map_eq_some_iff] at found
    obtain ⟨t, found, -⟩ := found
    exact ⟨_, .task none found⟩
  | named found _ ih =>
    rw [same.functorBody_eq] at found
    obtain ⟨t, typed⟩ := ih (wf.body_mem_nodes hn found)
    exact ⟨t, .named found typed⟩
  | composition inner outer fits ihInner ihOuter =>
    obtain ⟨hOuter, hInner⟩ := wf.operands_mem_nodes hn
    obtain ⟨t, typed⟩ := ihInner hInner
    obtain ⟨a, b, rfl⟩ := typed.isFn
    obtain ⟨t', typed'⟩ := ihOuter hOuter
    obtain ⟨b', c, rfl⟩ := typed'.isFn
    -- the types of the operands are these two with the new names
    obtain ⟨rfl, rfl⟩ := Ty.fn.inj (inner.unique (same.hasType wf hInner typed))
    obtain ⟨rfl, rfl⟩ := Ty.fn.inj (outer.unique (same.hasType wf hOuter typed'))
    rw [Ty.compatible_rename] at fits
    exact ⟨_, .composition typed typed' fits⟩
  | product left right fits ihLeft ihRight =>
    obtain ⟨hLeft, hRight⟩ := wf.branches_mem_nodes hn
    obtain ⟨t, typed⟩ := ihLeft hLeft
    obtain ⟨a, b, rfl⟩ := typed.isFn
    obtain ⟨t', typed'⟩ := ihRight hRight
    obtain ⟨a', c, rfl⟩ := typed'.isFn
    -- the types of the branches are these two with the new names
    obtain ⟨rfl, rfl⟩ := Ty.fn.inj (left.unique (same.hasType wf hLeft typed))
    obtain ⟨rfl, rfl⟩ := Ty.fn.inj (right.unique (same.hasType wf hRight typed'))
    rw [Ty.compatible_rename] at fits
    exact ⟨_, .product typed typed' fits⟩
  | functor _ ih =>
    obtain ⟨t, typed⟩ := ih (wf.declared_mem_nodes hn)
    exact ⟨t, .functor typed⟩

theorem hasType_iff (wf : p.WellFormed) {n : Node} (hn : n ∈ p.nodes) (u : Ty) :
    q.HasType env' n u ↔ ∃ t, p.HasType env n t ∧ t.rename g = u := by
  constructor
  · intro h
    obtain ⟨t, typed⟩ := same.typed_of_hasType wf hn h
    exact ⟨t, typed, (same.hasType wf hn typed).unique h⟩
  · rintro ⟨t, typed, rfl⟩
    exact same.hasType wf hn typed

theorem typed_iff (wf : p.WellFormed) {n : Node} (hn : n ∈ p.nodes) :
    q.Typed env' n ↔ p.Typed env n := by
  constructor
  · rintro ⟨u, h⟩
    exact same.typed_of_hasType wf hn h
  · rintro ⟨t, h⟩
    exact ⟨_, same.hasType wf hn h⟩

theorem faulty_iff (wf : p.WellFormed) {n : Node} (hn : n ∈ p.nodes) :
    q.Faulty env' n ↔ p.Faulty env n := by
  rw [Faulty, Faulty, same.functorBody_eq, same.typed_iff wf hn]
  refine and_congr_left fun _ ↦ forall₂_congr fun m hm ↦ ?_
  exact same.typed_iff wf (wf.mem_nodes_of_mem_dependencies hn hm)

/-- The reports differ in the names of variables only. -/
theorem checkWith (wf : p.WellFormed) (rules : List LintRule) {base base' : Environment}
    (here : env = p.environment base) (there : env' = q.environment base') :
    (q.checkWith rules base').success = (p.checkWith rules base).success ∧
    (q.checkWith rules base').errors.map TypeError.about =
      (p.checkWith rules base).errors.map TypeError.about ∧
    (∀ i, Option.Rel (Ty.RenamesTo g) ((p.checkWith rules base).nodeTypes.get? i)
      ((q.checkWith rules base').nodeTypes.get? i)) ∧
    Option.Rel (Ty.RenamesTo g) (p.checkWith rules base).programType
      (q.checkWith rules base').programType ∧
    ∀ f ∈ p.functors,
      Option.Rel (Ty.RenamesTo g) ((p.checkWith rules base).environment.bind (·.get? f.1))
        ((q.checkWith rules base').environment.bind (·.get? f.1)) := by
  subst here there
  have wf' := same.wellFormed wf
  have exact := wf.exact_checkWith rules base
  have exact' := wf'.exact_checkWith rules base'
  have separates {n : Node} {t : Ty} (hn : n ∈ p.nodes) (h : p.HasType (p.environment base) n t) :
      t.Separates g := (h.varsIn wf hn).separates same.inj
  have success : (q.checkWith rules base').success = (p.checkWith rules base).success := by
    rw [Bool.eq_iff_iff, exact'.success_iff, exact.success_iff, same.nodes_eq]
    exact forall₂_congr fun n hn ↦ same.typed_iff wf hn
  refine ⟨success, ?_, fun i ↦ ?_, ?_, fun f hf ↦ ?_⟩
  · exact exact.map_about_eq exact' same.nodes_eq fun n hn ↦ same.faulty_iff wf hn
  · by_cases known : ∃ n ∈ p.nodes, n.id = i
    · obtain ⟨n, hn, rfl⟩ := known
      have hn' : n ∈ q.nodes := same.nodes_eq ▸ hn
      refine Ty.rel_of_iff (fun u ↦ ?_) fun t found ↦ separates hn ((exact.types n hn t).1 found)
      rw [exact'.types n hn', same.hasType_iff wf hn]
      simp only [exact.types n hn]
    · -- no other id has a type
      have none : (p.checkWith rules base).nodeTypes.get? i = none :=
        Option.eq_none_iff_forall_ne_some.2 fun t found ↦ known (exact.keys i t found)
      have none' : (q.checkWith rules base').nodeTypes.get? i = Option.none :=
        Option.eq_none_iff_forall_ne_some.2 fun t found ↦
          known (same.nodes_eq ▸ exact'.keys i t found)
      rw [none, none']
      exact .none
  · refine Ty.rel_of_iff (fun u ↦ ?_) fun t found ↦ ?_
    · rw [wf'.programType_checkWith_iff, success, same.root, same.hasType_iff wf p.root_mem_nodes]
      simp only [wf.programType_checkWith_iff, ← exists_and_left, and_assoc]
    · exact separates p.root_mem_nodes ((wf.programType_checkWith_iff rules base t).1 found).2
  · obtain ⟨i, body, span, shape, -⟩ := wf.entry f hf
    have stands : p.functorBody f.1 = some body :=
      wf.functorBody_eq_some_iff.2 ⟨i, span, shape ▸ hf⟩
    have stands' : q.functorBody f.1 = some body := same.functorBody_eq ▸ stands
    have hn : body ∈ p.nodes :=
      List.mem_append_left _ (List.mem_flatMap.2 ⟨f, hf, by simp [shape, Node.all]⟩)
    refine Ty.rel_of_iff (fun u ↦ ?_) fun t found ↦ ?_
    · rw [wf'.environment_checkWith_iff rules base' stands', success, same.hasType_iff wf hn]
      simp only [wf.environment_checkWith_iff rules base stands, ← exists_and_left, and_assoc]
    · exact separates hn ((wf.environment_checkWith_iff rules base stands t).1 found).2

end Renamed

/-! ## One task -/

section OneTask

variable {name : String} {r : String → String}

/-- Whether other names for the variables of one task keep variables apart that were apart: those of
the task, and each that gets another name from those of the other tasks, before and after. -/
structure RenamesApart (p : Program) (env : Environment) (name : String) (r : String → String) :
    Prop where
  inj : {x | p.Owns env name x}.InjOn r
  free : ∀ x, p.Owns env name x → r x ≠ x →
    ∀ other, other ≠ name → ¬ p.Owns env other x ∧ ¬ p.Owns env other (r x)

open Classical in
/-- The names of all variables when those of one task get other names. -/
noncomputable def newName (p : Program) (env : Environment) (name : String) (r : String → String)
    (x : String) : String :=
  if p.Owns env name x then r x else x

theorem newName_of_owns {x : String} (h : p.Owns env name x) : p.newName env name r x = r x :=
  if_pos h

theorem newName_of_not_owns {x : String} (h : ¬ p.Owns env name x) :
    p.newName env name r x = x :=
  if_neg h

namespace RenamesApart

variable (apart : p.RenamesApart env name r)
include apart

/-- A variable of another task keeps its name, even if the renamed task has it as well. -/
theorem newName_of_other {x other : String} (differ : other ≠ name) (h : p.Owns env other x) :
    p.newName env name r x = x := by
  by_cases own : p.Owns env name x
  · rw [newName_of_owns own]
    by_contra moved
    exact (apart.free x own moved other differ).1 h
  · exact newName_of_not_owns own

/-- No variable of the renamed task gets the name of a variable that only other tasks have. -/
theorem eq_of_other {x y : String} (own : p.Owns env name x) (hy : y ∈ p.vars env)
    (foreign : ¬ p.Owns env name y) (same : r x = y) : x = y := by
  obtain ⟨other, h⟩ := hy
  by_cases moved : r x = x
  · exact moved.symm.trans same
  · have differ : other ≠ name := by
      rintro rfl
      exact foreign h
    have := (apart.free x own moved other differ).2
    rw [same] at this
    exact (this h).elim

theorem injOn_newName : (p.vars env).InjOn (p.newName env name r) := by
  intro x hx y hy same
  by_cases own : p.Owns env name x
  · rw [newName_of_owns own] at same
    by_cases own' : p.Owns env name y
    · rw [newName_of_owns own'] at same
      exact apart.inj own own' same
    · rw [newName_of_not_owns own'] at same
      exact apart.eq_of_other own hy own' same
  · rw [newName_of_not_owns own] at same
    by_cases own' : p.Owns env name y
    · rw [newName_of_owns own'] at same
      exact (apart.eq_of_other own' hx own same.symm).symm
    · rwa [newName_of_not_owns own'] at same

end RenamesApart

end OneTask

end Program

/-- Whether `env'` is `env` with other names for the variables in the type of one task. -/
def Environment.RenamedAt (env : Environment) (name : String) (r : String → String)
    (env' : Environment) : Prop :=
  ∀ other, env'.get? other = if other = name then (env.get? other).map (Ty.rename r)
    else env.get? other

/-- Other names for the variables of one task are other names for the variables of all tasks, if
they keep variables apart. -/
theorem Program.RenamesApart.renamed {p q : Program} {env env' : Environment} {name : String}
    {r : String → String} (apart : p.RenamesApart env name r) (functors : q.functors = p.functors)
    (root : q.root = p.root) (renamed : env.RenamedAt name r env') :
    p.Renamed env q env' (p.newName env name r) where
  functors := functors
  root := root
  inj := apart.injOn_newName
  tasks other refers := by
    rw [renamed other]
    split
    next here =>
      subst here
      refine Option.map_congr fun t found ↦ Ty.rename_congr fun x mem ↦ ?_
      exact (newName_of_owns ⟨refers, t, found, mem⟩).symm
    next differ =>
      cases found : env.get? other with
      | none => rfl
      | some u =>
        have keeps : u.rename (p.newName env name r) = u.rename id :=
          Ty.rename_congr fun x mem ↦ apart.newName_of_other differ ⟨refers, u, found, mem⟩
        rw [Option.map_some, keeps, Ty.rename_id]

/-- Other names for the variables in the signature of one task, be it in the program or in the
base, which keep variables apart.  A program passes its check before if and only if it does
afterwards, the errors are of the same kinds and about the same nodes, in the same order, and the
types of the program, of functors and of all other nodes differ in the names of variables only. -/
theorem check_renamed {text : String} {p q : Program} {name : String} {r : String → String}
    {base base' : Environment} (parsed : Program.parse text = .ok p)
    (functors : q.functors = p.functors) (root : q.root = p.root)
    (renamed : (p.environment base).RenamedAt name r (q.environment base'))
    (apart : p.RenamesApart (p.environment base) name r) :
    (q.check base').success = (p.check base).success ∧
    (q.check base').errors.map TypeError.about = (p.check base).errors.map TypeError.about ∧
    ∃ g : String → String,
      (∀ i, Option.Rel (Ty.RenamesTo g) ((p.check base).nodeTypes.get? i)
        ((q.check base').nodeTypes.get? i)) ∧
      Option.Rel (Ty.RenamesTo g) (p.check base).programType (q.check base').programType ∧
      ∀ f ∈ p.functors, Option.Rel (Ty.RenamesTo g) ((p.check base).environment.bind (·.get? f.1))
        ((q.check base').environment.bind (·.get? f.1)) := by
  have wf := Program.wellFormed_of_parse parsed
  have same := apart.renamed functors root renamed
  obtain ⟨success, errors, types⟩ := same.checkWith wf LintRule.all rfl rfl
  exact ⟨success, errors, _, types⟩

/-- A task that swaps the sides of a pair, with its two variables exchanged. -/
theorem check_renamed_of_exchange :
    let rest := "e :: c -> c\nf = t ∘ e\nf"
    let swap (a b : String) : Ty := .fn (.prod (.var a) (.var b)) (.prod (.var b) (.var a))
    ∃ p q g, Program.parse ("t :: (a × b) -> (b × a)\n" ++ rest) = .ok p ∧
      Program.parse ("t :: (b × a) -> (a × b)\n" ++ rest) = .ok q ∧
      (p.check .empty).programType = some (swap "a" "b") ∧
      (q.check .empty).success = (p.check .empty).success ∧
      (q.check .empty).errors.map TypeError.about = (p.check .empty).errors.map TypeError.about ∧
      Option.Rel (Ty.RenamesTo g) (p.check .empty).programType (q.check .empty).programType := by
  intro rest swap
  let types (a b : String) : List (String × Ty) :=
    [("e", .fn (.var "c") (.var "c")), ("t", swap a b)]
  obtain ⟨p, q, parsed, parsed', type, functors, root, entries, entries'⟩ : ∃ p q,
      Program.parse ("t :: (a × b) -> (b × a)\n" ++ rest) = .ok p ∧
      Program.parse ("t :: (b × a) -> (a × b)\n" ++ rest) = .ok q ∧
      (p.check .empty).programType = some (swap "a" "b") ∧
      q.functors = p.functors ∧ q.root = p.root ∧
      (p.environment .empty).entries = types "a" "b" ∧
      (q.environment .empty).entries = types "b" "a" :=
    ⟨_, _, Except.eq_ok_get (by decide +kernel), Except.eq_ok_get (by decide +kernel),
      by decide +kernel, by decide +kernel, by decide +kernel, by decide +kernel,
      by decide +kernel⟩
  let r (x : String) : String := if x = "a" then "b" else "a"
  have renamed : (p.environment .empty).RenamedAt "t" r (q.environment .empty) := by
    intro other
    rw [SortedMap.get?, SortedMap.get?, entries, entries']
    simp only [types, lookup_cons_eq_ite, List.lookup_nil]
    by_cases same : other = "t"
    · subst same
      decide
    · simp [same]
  have owned {x : String} (own : p.Owns (p.environment .empty) "t" x) : x = "a" ∨ x = "b" := by
    obtain ⟨-, t, found, mem⟩ := own
    rw [SortedMap.get?, entries] at found
    cases found
    simpa [swap, or_comm] using mem
  have foreign {other x : String} (differ : other ≠ "t")
      (own : p.Owns (p.environment .empty) other x) : x = "c" := by
    obtain ⟨-, t, found, mem⟩ := own
    have entry := mem_of_lookup_eq_some found
    rw [entries] at entry
    rcases List.mem_pair.1 entry with ⟨⟨⟩, rfl⟩ | ⟨⟨⟩, rfl⟩
    · simpa using mem
    · exact (differ rfl).elim
  have apart : p.RenamesApart (p.environment .empty) "t" r := by
    refine ⟨fun x hx y hy same ↦ ?_, fun x hx moved other differ ↦ ⟨fun h ↦ ?_, fun h ↦ ?_⟩⟩
    · rcases owned hx with rfl | rfl <;> rcases owned hy with rfl | rfl <;> simp_all [r]
    · rcases owned hx with rfl | rfl <;> exact absurd (foreign differ h) (by decide)
    · have := foreign differ h
      rcases owned hx with rfl | rfl <;> simp [r] at this
  obtain ⟨success, errors, g, -, same, -⟩ := check_renamed parsed functors root renamed apart
  exact ⟨p, q, g, parsed, parsed', type, success, errors, same⟩

/-- If two tasks have a variable in common then a program can fail its check which passes it when
one of them gets another name for that variable, and the other way round; and a type can have two
variables where it had one. -/
theorem sharing_matters :
    let source (e root : String) : String :=
      "id :: a -> a\ne :: " ++ e ++ "\nk :: () -> Q\nw :: P -> R\n" ++ root
    let type (e root : String) : Option (Option Ty) :=
      (Program.parse (source e root)).toOption.map fun p ↦ (p.check .empty).programType
    Ty.IsRenaming (.fn (.var "a") (.var "a")) (.fn (.var "b") (.var "b")) ∧
    type "a -> a" "w ∘ ((id ∘ e) ∘ k)" = some none ∧
    type "b -> b" "w ∘ ((id ∘ e) ∘ k)" = some (some (.fn .unit (.mono "R"))) ∧
    ∃ t u, type "a -> a" "id ∘ e" = some (some t) ∧ type "b -> b" "id ∘ e" = some (some u) ∧
      ∀ r, t.rename r ≠ u := by
  intro source type
  refine ⟨⟨fun _ ↦ "b", by decide, rfl⟩, by decide +kernel, by decide +kernel,
    .fn (.var "a") (.var "a"), .fn (.var "a") (.var "b"), by decide +kernel, by decide +kernel, ?_⟩
  intro r same
  obtain ⟨domain, codomain⟩ := Ty.fn.inj same
  exact absurd (domain.symm.trans codomain) (by decide)

end Taskflow
