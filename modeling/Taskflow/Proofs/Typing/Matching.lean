import Taskflow.Table
import Taskflow.Ty.Substitution

/-!
# Matching

Matching a pattern against a type records what its variables *meet* there (`Ty.meetings`).  A
variable is bound to something that it meets, and one that is not bound meets only itself.  So what
a substitution that comes from matching does to a type is known from the meetings alone: it leaves
types alone that share no variable with the pattern (`apply_bind_of_apart`), and what a type has to
be compatible with afterwards is everything that one of its variables meets on either side
(`compatible_apply_bind_iff`).

The last fact needs that no variable meets more than one thing, since only the first meeting counts.
-/

namespace Taskflow

namespace Ty

/-- How often a variable occurs in a type. -/
def count (x : String) : Ty → Nat
  | .var a => if a = x then 1 else 0
  | .fn a b => a.count x + b.count x
  | .prod a b => a.count x + b.count x
  | .mono _ => 0
  | .unit => 0

/-- A type with other names for its variables. -/
def rename (r : String → String) : Ty → Ty
  | .var a => .var (r a)
  | .fn a b => .fn (a.rename r) (b.rename r)
  | .prod a b => .prod (a.rename r) (b.rename r)
  | .mono a => .mono a
  | .unit => .unit

/-- What the variables of the first type meet in the second, occurrence by occurrence. -/
def meetings : Ty → Ty → List (String × Ty)
  | .var a, t => [(a, t)]
  | .fn a b, .fn a' b' => a.meetings a' ++ b.meetings b'
  | .prod a b, .prod a' b' => a.meetings a' ++ b.meetings b'
  | _, _ => []

/-- Whether a renaming gives different names to different variables of a type. -/
def Separates (t : Ty) (r : String → String) : Prop :=
  ∀ x ∈ t.vars, ∀ y ∈ t.vars, r x = r y → x = y

/-- Whether two types differ in the names of variables at most. -/
def IsRenaming (t u : Ty) : Prop := ∃ r, t.Separates r ∧ t.rename r = u

/-- Whether two types have no variable in common. -/
def Apart (t u : Ty) : Prop := ∀ x ∈ t.vars, x ∉ u.vars

/-- Whether every variable that two types have in common occurs once in each. -/
def LinkedOnce (t u : Ty) : Prop := ∀ x ∈ t.vars, x ∈ u.vars → t.count x ≤ 1 ∧ u.count x ≤ 1

instance (r : String → String) (t : Ty) : Decidable (t.Separates r) :=
  inferInstanceAs (Decidable (∀ x ∈ t.vars, ∀ y ∈ t.vars, r x = r y → x = y))

instance (t u : Ty) : Decidable (t.Apart u) :=
  inferInstanceAs (Decidable (∀ x ∈ t.vars, x ∉ u.vars))

instance (t u : Ty) : Decidable (t.LinkedOnce u) :=
  inferInstanceAs (Decidable (∀ x ∈ t.vars, x ∈ u.vars → t.count x ≤ 1 ∧ u.count x ≤ 1))

/-! ## Variables -/

theorem mem_collectVars {x : String} {t : Ty} {seen : List String} :
    x ∈ t.collectVars seen ↔ x ∈ seen ∨ 0 < t.count x := by
  induction t generalizing seen with
  | mono | unit => simp [collectVars, count]
  | var a =>
    rw [collectVars, count]
    split
    next mem =>
      by_cases same : a = x
      · simp [same ▸ mem]
      · simp [same]
    next =>
      rw [List.mem_append, List.mem_singleton, eq_comm]
      split <;> simp_all
  | fn a b ihA ihB | prod a b ihA ihB =>
    rw [collectVars, ihB, ihA, count, or_assoc, Nat.add_pos_iff_pos_or_pos]

theorem collectVars_eq_nil {seen : List String} {t : Ty} (h : t.collectVars seen = []) :
    seen = [] := by
  induction t generalizing seen with
  | mono | unit => exact h
  | var a =>
    rw [collectVars] at h
    split at h
    · exact h
    · simp at h
  | fn a b ihA ihB | prod a b ihA ihB => exact ihA (ihB h)

theorem vars_pair_eq_nil_iff {a b : Ty} :
    b.collectVars (a.collectVars []) = [] ↔ a.vars = [] ∧ b.vars = [] := by
  constructor
  · intro h
    have none : a.collectVars [] = [] := collectVars_eq_nil h
    rw [none] at h
    exact ⟨none, h⟩
  · rintro ⟨ha, hb⟩
    rw [vars] at ha hb
    rw [ha, hb]

theorem mem_vars_iff {x : String} {t : Ty} : x ∈ t.vars ↔ 0 < t.count x := by
  rw [vars, mem_collectVars]
  simp

@[simp] theorem mem_vars_var {x a : String} : x ∈ (var a).vars ↔ x = a := by
  simp [vars, collectVars]

@[simp] theorem mem_vars_fn {x : String} {a b : Ty} :
    x ∈ (fn a b).vars ↔ x ∈ a.vars ∨ x ∈ b.vars := by
  rw [mem_vars_iff, mem_vars_iff, mem_vars_iff, count, Nat.add_pos_iff_pos_or_pos]

@[simp] theorem mem_vars_prod {x : String} {a b : Ty} :
    x ∈ (prod a b).vars ↔ x ∈ a.vars ∨ x ∈ b.vars := by
  rw [mem_vars_iff, mem_vars_iff, mem_vars_iff, count, Nat.add_pos_iff_pos_or_pos]

theorem Apart.symm {t u : Ty} (h : t.Apart u) : u.Apart t := fun x inU inT ↦ h x inT inU

/-- A variable appears under its new name. -/
theorem mem_vars_rename {r : String → String} {t : Ty} {x : String} (h : x ∈ t.vars) :
    r x ∈ (t.rename r).vars := by
  induction t with
  | mono | unit => cases h
  | var a =>
    obtain rfl := mem_vars_var.1 h
    exact mem_vars_var.2 rfl
  | fn a b ihA ihB => exact mem_vars_fn.2 ((mem_vars_fn.1 h).imp ihA ihB)
  | prod a b ihA ihB => exact mem_vars_prod.2 ((mem_vars_prod.1 h).imp ihA ihB)

@[simp] theorem rename_id (t : Ty) : t.rename id = t := by
  induction t <;> simp_all [rename]

theorem IsRenaming.refl (t : Ty) : t.IsRenaming t := ⟨id, fun _ _ _ _ same ↦ same, t.rename_id⟩

/-! ## Substitutions -/

/-- A substitution that binds no variable of a type leaves it as it is. -/
theorem apply_eq_self {s : Substitution} {t : Ty} (h : ∀ x ∈ t.vars, s.lookup x = none) :
    t.apply s = t := by
  induction t with
  | mono | unit => rfl
  | var a => simp [apply, h a (mem_vars_var.2 rfl)]
  | fn a b ihA ihB =>
    rw [apply, ihA fun x mem ↦ h x (mem_vars_fn.2 (.inl mem)),
      ihB fun x mem ↦ h x (mem_vars_fn.2 (.inr mem))]
  | prod a b ihA ihB =>
    rw [apply, ihA fun x mem ↦ h x (mem_vars_prod.2 (.inl mem)),
      ihB fun x mem ↦ h x (mem_vars_prod.2 (.inr mem))]

/-- No substitution changes a type without variables. -/
theorem apply_of_vars_eq_nil {s : Substitution} {t : Ty} (ground : t.vars = []) :
    t.apply s = t := by
  refine apply_eq_self fun x mem ↦ ?_
  rw [ground] at mem
  cases mem

/-- A variable that appears comes with what another one is bound to. -/
theorem mem_vars_apply {s : Substitution} {t : Ty} {y : String} (h : y ∈ (t.apply s).vars) :
    y ∈ t.vars ∨ ∃ x u, s.lookup x = some u ∧ y ∈ u.vars := by
  induction t with
  | mono | unit => exact .inl h
  | var a =>
    rw [apply] at h
    cases bound : s.lookup a with
    | none =>
      rw [bound] at h
      exact .inl h
    | some u =>
      rw [bound] at h
      exact .inr ⟨a, u, bound, h⟩
  | fn a b ihA ihB =>
    rcases mem_vars_fn.1 h with h | h
    · exact (ihA h).imp_left fun mem ↦ mem_vars_fn.2 (.inl mem)
    · exact (ihB h).imp_left fun mem ↦ mem_vars_fn.2 (.inr mem)
  | prod a b ihA ihB =>
    rcases mem_vars_prod.1 h with h | h
    · exact (ihA h).imp_left fun mem ↦ mem_vars_prod.2 (.inl mem)
    · exact (ihB h).imp_left fun mem ↦ mem_vars_prod.2 (.inr mem)

/-! ## Meetings -/

/-- It is a variable of the pattern that meets something in the type. -/
theorem vars_of_mem_meetings {a t u : Ty} {x : String} (h : (x, u) ∈ a.meetings t) :
    x ∈ a.vars ∧ ∀ y ∈ u.vars, y ∈ t.vars := by
  induction a generalizing t with
  | mono | unit => cases t <;> cases h
  | var a =>
    obtain ⟨rfl, rfl⟩ := Prod.mk.inj (List.mem_singleton.1 h)
    exact ⟨mem_vars_var.2 rfl, fun y mem ↦ mem⟩
  | fn a b ihA ihB =>
    cases t with
    | fn a' b' =>
      rcases List.mem_append.1 h with h | h
      · obtain ⟨mem, sub⟩ := ihA h
        exact ⟨mem_vars_fn.2 (.inl mem), fun y mem ↦ mem_vars_fn.2 (.inl (sub y mem))⟩
      · obtain ⟨mem, sub⟩ := ihB h
        exact ⟨mem_vars_fn.2 (.inr mem), fun y mem ↦ mem_vars_fn.2 (.inr (sub y mem))⟩
    | _ => cases h
  | prod a b ihA ihB =>
    cases t with
    | prod a' b' =>
      rcases List.mem_append.1 h with h | h
      · obtain ⟨mem, sub⟩ := ihA h
        exact ⟨mem_vars_prod.2 (.inl mem), fun y mem ↦ mem_vars_prod.2 (.inl (sub y mem))⟩
      · obtain ⟨mem, sub⟩ := ihB h
        exact ⟨mem_vars_prod.2 (.inr mem), fun y mem ↦ mem_vars_prod.2 (.inr (sub y mem))⟩
    | _ => cases h

/-- What holds of the meetings of a variable in each part of two types holds of all its meetings
there, if it occurs in one part of the pattern only. -/
theorem of_mem_append {P : Ty → Ty → Prop} {a b a' b' a'' b'' u u' : Ty} {x : String}
    (once : a.count x + b.count x ≤ 1)
    (left : a.count x ≤ 1 → (x, u) ∈ a.meetings a' → (x, u') ∈ a.meetings a'' → P u u')
    (right : b.count x ≤ 1 → (x, u) ∈ b.meetings b' → (x, u') ∈ b.meetings b'' → P u u')
    (h : (x, u) ∈ a.meetings a' ++ b.meetings b')
    (h' : (x, u') ∈ a.meetings a'' ++ b.meetings b'') : P u u' := by
  have occurs : ∀ {a t u : Ty}, (x, u) ∈ a.meetings t → 0 < a.count x :=
    fun h ↦ mem_vars_iff.1 (vars_of_mem_meetings h).1
  rcases List.mem_append.1 h with inLeft | inRight <;>
    rcases List.mem_append.1 h' with inLeft' | inRight'
  · exact left (by omega) inLeft inLeft'
  · have := occurs inLeft
    have := occurs inRight'
    omega
  · have := occurs inRight
    have := occurs inLeft'
    omega
  · exact right (by omega) inRight inRight'

/-- A variable that occurs once meets one thing at most. -/
theorem eq_of_mem_meetings {a t u u' : Ty} {x : String} (once : a.count x ≤ 1)
    (h : (x, u) ∈ a.meetings t) (h' : (x, u') ∈ a.meetings t) : u = u' := by
  induction a generalizing t with
  | mono | unit => cases t <;> cases h
  | var a =>
    cases List.mem_singleton.1 h
    cases List.mem_singleton.1 h'
    rfl
  | fn a b ihA ihB =>
    cases t with
    | fn a' b' => exact of_mem_append once ihA ihB h h'
    | _ => cases h
  | prod a b ihA ihB =>
    cases t with
    | prod a' b' => exact of_mem_append once ihA ihB h h'
    | _ => cases h

theorem lookup_bindNew (s : Substitution) (a : String) (t : Ty) (x : String) :
    (s.bindNew a t).lookup x = (s.lookup x).or (if x = a then some t else none) := by
  rw [Substitution.bindNew]
  split
  next bound =>
    obtain ⟨u, bound⟩ := Option.isSome_iff_exists.1 bound
    by_cases same : x = a
    · rw [same, bound]
      rfl
    · simp [same]
  next => rw [List.lookup_append, lookup_cons_eq_ite, List.lookup_nil]

/-- What a variable is bound to is something that it meets. -/
theorem mem_meetings_of_lookup {a t u : Ty} {s : Substitution} {x : String}
    (h : (a.bind t s).lookup x = some u) : s.lookup x = some u ∨ (x, u) ∈ a.meetings t := by
  induction a generalizing t s with
  | mono | unit => exact .inl h
  | var a =>
    rw [bind] at h
    split at h
    · exact .inl h
    · rw [lookup_bindNew, Option.or_eq_some_iff] at h
      rcases h with h | ⟨-, h⟩
      · exact .inl h
      · obtain ⟨rfl, ⟨⟩⟩ := Option.ite_none_right_eq_some.1 h
        exact .inr (List.mem_singleton.2 rfl)
  | fn a b ihA ihB =>
    cases t with
    | fn a' b' =>
      rcases ihB h with h | h
      · exact (ihA h).imp_right fun mem ↦ List.mem_append_left _ mem
      · exact .inr (List.mem_append_right _ h)
    | _ => exact .inl h
  | prod a b ihA ihB =>
    cases t with
    | prod a' b' =>
      rcases ihB h with h | h
      · exact (ihA h).imp_right fun mem ↦ List.mem_append_left _ mem
      · exact .inr (List.mem_append_right _ h)
    | _ => exact .inl h

/-- A variable that is not bound meets only itself. -/
theorem eq_var_of_lookup {a t u : Ty} {s : Substitution} {x : String}
    (none : (a.bind t s).lookup x = none) :
    s.lookup x = Option.none ∧ ((x, u) ∈ a.meetings t → u = .var x) := by
  induction a generalizing t s with
  | mono | unit =>
    refine ⟨none, ?_⟩
    intro h
    cases t <;> cases h
  | var a =>
    rw [bind] at none
    split at none
    next same =>
      refine ⟨none, ?_⟩
      intro h
      cases List.mem_singleton.1 h
      exact same
    next =>
      rw [lookup_bindNew, Option.or_eq_none_iff] at none
      refine ⟨none.1, ?_⟩
      intro h
      cases List.mem_singleton.1 h
      simp at none
  | fn a b ihA ihB =>
    cases t with
    | fn a' b' =>
      obtain ⟨none, inRight⟩ := ihB none
      obtain ⟨none, inLeft⟩ := ihA none
      exact ⟨none, fun h ↦ (List.mem_append.1 h).elim inLeft inRight⟩
    | _ => exact ⟨none, fun h ↦ nomatch h⟩
  | prod a b ihA ihB =>
    cases t with
    | prod a' b' =>
      obtain ⟨none, inRight⟩ := ihB none
      obtain ⟨none, inLeft⟩ := ihA none
      exact ⟨none, fun h ↦ (List.mem_append.1 h).elim inLeft inRight⟩
    | _ => exact ⟨none, fun h ↦ nomatch h⟩

/-! ## What matching does to a type -/

/-- Matching binds the variables of the pattern only. -/
theorem mem_vars_of_lookup_bind {a t u : Ty} {x : String} (h : (a.bind t []).lookup x = some u) :
    x ∈ a.vars ∧ ∀ y ∈ u.vars, y ∈ t.vars := by
  rcases mem_meetings_of_lookup h with h | h
  · cases h
  · exact vars_of_mem_meetings h

/-- What a pattern binds leaves a type alone that shares no variable with the pattern. -/
theorem apply_bind_of_apart {a b t : Ty} (apart : a.Apart b) : a.apply (b.bind t []) = a := by
  refine apply_eq_self fun x mem ↦ ?_
  cases bound : (b.bind t []).lookup x with
  | none => rfl
  | some u => exact (apart x mem (mem_vars_of_lookup_bind bound).1).elim

/-- A pattern without variables binds nothing. -/
theorem bind_of_vars_eq_nil {a : Ty} (ground : a.vars = []) (t : Ty) (s : Substitution) :
    a.bind t s = s := by
  induction a generalizing t s with
  | mono | unit => rfl
  | var a => simp [vars, collectVars] at ground
  | fn a b ihA ihB | prod a b ihA ihB =>
    obtain ⟨ha, hb⟩ := vars_pair_eq_nil_iff.1 ground
    cases t <;> simp [bind, ihA ha, ihB hb]

/-- A type is left as it is by what a pattern without variables binds. -/
theorem apply_bind_of_vars_eq_nil {a : Ty} (ground : a.vars = []) (t u : Ty) :
    u.apply (a.bind t []) = u := by
  rw [bind_of_vars_eq_nil ground, apply_nil]

/-- A type matched with itself tells nothing. -/
theorem bind_self (t : Ty) (s : Substitution) : t.bind t s = s := by
  induction t generalizing s with
  | mono | unit => rfl
  | var a => rw [bind, if_pos rfl]
  | fn a b ihA ihB | prod a b ihA ihB => rw [bind, ihA, ihB]

/-- What a variable is replaced by when it is matched with a type is that type. -/
theorem apply_bind_var (x : String) (t : Ty) : (var x).apply ((var x).bind t []) = t := by
  rw [bind]
  split
  next same => rw [same, apply_nil]
  next => simp [apply, Substitution.bindNew]

/-- A variable is no structure to match: it tells nothing of a pattern that is no variable. -/
theorem bind_var_of_not_isVar {a : Ty} (h : a.isVar = false) (x : String) (s : Substitution) :
    a.bind (.var x) s = s := by
  cases a with
  | var => cases h
  | _ => rfl

/-- The variables of a type after matching are its own and those that were matched. -/
theorem mem_vars_apply_bind {a b t : Ty} {y : String} (h : y ∈ (a.apply (b.bind t [])).vars) :
    y ∈ a.vars ∨ y ∈ t.vars := by
  rcases mem_vars_apply h with mem | ⟨x, u, bound, mem⟩
  · exact .inl mem
  · exact .inr ((mem_vars_of_lookup_bind bound).2 y mem)

/-! ## Compatibility -/

@[simp] theorem compatible_var (t : Ty) (a : String) : t.compatible (.var a) = true := by
  cases t <;> rfl

theorem compatible_self (t : Ty) : t.compatible t = true := by
  induction t with
  | var | unit => rfl
  | mono a => exact beq_self_eq_true a
  | fn a b ihA ihB | prod a b ihA ihB => rw [compatible, ihA, ihB, Bool.and_true]

theorem compatible_comm (a b : Ty) : a.compatible b = b.compatible a := by
  induction a generalizing b with
  | mono | var | unit => cases b <;> simp [compatible, Bool.beq_comm]
  | fn _ _ ihA ihB | prod _ _ ihA ihB => cases b <;> simp [compatible, ihA, ihB]

/-- Types without variables are compatible only if they are equal. -/
theorem eq_of_compatible {a b : Ty} (ha : a.vars = []) (hb : b.vars = [])
    (h : a.compatible b = true) : a = b := by
  fun_induction compatible a b with
  | case1 => simp [vars, collectVars] at ha
  | case2 => simp [vars, collectVars] at hb
  | case3 => rfl
  | case4 a b => rw [beq_iff_eq.1 h]
  | case5 a₁ a₂ b₁ b₂ ih₁ ih₂ | case6 a₁ a₂ b₁ b₂ ih₁ ih₂ =>
    obtain ⟨ha₁, ha₂⟩ := vars_pair_eq_nil_iff.1 ha
    obtain ⟨hb₁, hb₂⟩ := vars_pair_eq_nil_iff.1 hb
    rw [Bool.and_eq_true] at h
    rw [ih₁ ha₁ hb₁ h.1, ih₂ ha₂ hb₂ h.2]
  | case7 => cases h

/-- A type is compatible with the result of a substitution if it is compatible with the type as it
was, and everything that a variable meets is compatible with what the variable is replaced by. -/
theorem compatible_apply_iff {a b : Ty} {s : Substitution} :
    a.compatible (b.apply s) = true ↔ a.compatible b = true ∧
      ∀ x t, (x, t) ∈ b.meetings a → t.compatible ((var x).apply s) = true := by
  induction b generalizing a with
  | mono | unit =>
    refine (and_iff_left ?_).symm
    intro x t mem
    cases a <;> cases mem
  | var b => simp [meetings]
  | fn b c ihB ihC =>
    cases a with
    | fn a a' =>
      simp only [apply, compatible, Bool.and_eq_true, ihB, ihC, meetings, List.mem_append, or_imp,
        forall_and]
      exact and_and_and_comm
    | _ => simp [apply, compatible, meetings]
  | prod b c ihB ihC =>
    cases a with
    | prod a a' =>
      simp only [apply, compatible, Bool.and_eq_true, ihB, ihC, meetings, List.mem_append, or_imp,
        forall_and]
      exact and_and_and_comm
    | _ => simp [apply, compatible, meetings]

/-- Where a variable is bound by matching and meets one thing there, what it is replaced by is as
good as what it meets. -/
theorem compatible_apply_bind_var_iff {c c' t : Ty} {x : String} (once : c.count x ≤ 1) :
    t.compatible ((var x).apply (c.bind c' [])) = true ↔
      ∀ u, (x, u) ∈ c.meetings c' → t.compatible u = true := by
  rw [apply]
  cases bound : (c.bind c' []).lookup x with
  | none =>
    refine iff_of_true (compatible_var t x) ?_
    intro u met
    rw [(eq_var_of_lookup bound).2 met]
    exact compatible_var t x
  | some u =>
    have met : (x, u) ∈ c.meetings c' := by
      rcases mem_meetings_of_lookup bound with h | h
      · cases h
      · exact h
    constructor
    · intro fits u' met'
      rwa [eq_of_mem_meetings once met' met]
    · exact fun fits ↦ fits u met

/-- If no variable of the pattern that occurs in `b` occurs there twice, then what `a` has to be
compatible with is `b`, and whatever the variables of `b` meet on the other side. -/
theorem compatible_apply_bind_iff {a b c c' : Ty}
    (once : ∀ x ∈ b.vars, x ∈ c.vars → c.count x ≤ 1) :
    a.compatible (b.apply (c.bind c' [])) = true ↔ a.compatible b = true ∧
      ∀ x t u, (x, t) ∈ b.meetings a → (x, u) ∈ c.meetings c' → t.compatible u = true := by
  rw [compatible_apply_iff]
  refine and_congr_right fun _ ↦ ?_
  constructor
  · intro met x t u here there
    have linked := once x (vars_of_mem_meetings here).1 (vars_of_mem_meetings there).1
    exact (compatible_apply_bind_var_iff linked).1 (met x t here) u there
  · intro met x t here
    by_cases bound : x ∈ c.vars
    · refine (compatible_apply_bind_var_iff (once x (vars_of_mem_meetings here).1 bound)).2 ?_
      exact fun u there ↦ met x t u here there
    · have apart : (var x).Apart c := by
        intro y mem
        rwa [mem_vars_var.1 mem]
      rw [apply_bind_of_apart apart]
      exact compatible_var t x

end Ty

end Taskflow
