import Taskflow.Proofs.Run.Resolution
import Taskflow.Proofs.Run.Steps
import Taskflow.Proofs.Run.World
import Taskflow.Proofs.Typing.Exactness
import Taskflow.Proofs.Typing.Matching
import Taskflow.Run.Guard

/-!
# Type soundness

In an environment without type variables the typing rules are simple: types that meet are equal, and
nothing is substituted.  So a plan carries the types of its nodes with it (`Plan.Yields`), a process
keeps them through every instant (`Process.Yields`), and if the executor keeps its promises then no
guard finds a violation and the value of a run has the type of the program
(`run_eq_of_checkWith_success`).

Values are only partly tagged.  A value conforms to a type if the type is compatible with what the
value says of itself; a side of a pair that says nothing counts as anything.
-/

namespace Taskflow

namespace Environment

/-- An environment in which no type has a variable. -/
def Ground (env : Environment) : Prop := ∀ name t, env.get? name = some t → t.vars = []

/-- What an environment says of a name is one of its entries. -/
theorem mem_entries {env : Environment} {name : String} {t : Ty} (h : env.get? name = some t) :
    (name, t) ∈ env.entries :=
  mem_of_lookup_eq_some h

end Environment

namespace Program.HasType

variable {p : Program} {env : Environment}

/-- In an environment without type variables there are none anywhere. -/
theorem vars_eq_nil (ground : env.Ground) {n : Node} {t : Ty} (h : p.HasType env n t) :
    t.vars = [] := by
  induction h with
  | @task _ _ _ t _ found =>
    have none := ground _ _ found
    cases t with
    | fn a b => exact none
    | _ => exact none
  | named _ _ ih => exact ih
  | composition _ _ _ ihInner ihOuter =>
    obtain ⟨ha, hb⟩ := Ty.vars_pair_eq_nil_iff.1 ihInner
    obtain ⟨hb', hc⟩ := Ty.vars_pair_eq_nil_iff.1 ihOuter
    rw [Ty.apply_bind_of_vars_eq_nil hb, Ty.apply_bind_of_vars_eq_nil hb']
    exact Ty.vars_pair_eq_nil_iff.2 ⟨ha, hc⟩
  | product _ _ _ ihLeft ihRight =>
    obtain ⟨ha, hb⟩ := Ty.vars_pair_eq_nil_iff.1 ihLeft
    obtain ⟨ha', hc⟩ := Ty.vars_pair_eq_nil_iff.1 ihRight
    rw [Ty.apply_bind_of_vars_eq_nil ha, Ty.apply_bind_of_vars_eq_nil ha']
    refine Ty.vars_pair_eq_nil_iff.2 ⟨?_, Ty.vars_pair_eq_nil_iff.2 ⟨hb, hc⟩⟩
    split
    · exact ha'
    · exact ha
  | functor _ ih => exact ih

end Program.HasType

/-! ## Values -/

/-- Whether nothing that a value says of itself contradicts a type. -/
def Val.Conforms (v : Val) (t : Ty) : Prop := ∀ a, v.runtimeType = some a → t.compatible a = true

/-- A type that is not contradicted by what is known is not contradicted where nothing is known. -/
theorem Ty.compatible_getD_unknown {t : Ty} {said : Option Ty}
    (known : ∀ a, said = some a → t.compatible a = true) :
    t.compatible (said.getD Val.unknown) = true := by
  cases said with
  | none => exact Ty.compatible_var _ _
  | some a => exact known a rfl

/-- A pair conforms to a product if its sides do; about a side that says nothing there is nothing to
contradict. -/
theorem Val.Conforms.pair {v w : Val} {a b : Ty} (hv : v.Conforms a) (hw : w.Conforms b) :
    (Val.pair v w).Conforms (.prod a b) := by
  have both : (Ty.prod a b).compatible
      (.prod (v.runtimeType.getD Val.unknown) (w.runtimeType.getD Val.unknown)) = true := by
    rw [Ty.compatible, Ty.compatible_getD_unknown hv, Ty.compatible_getD_unknown hw]
    rfl
  intro t said
  rw [Val.runtimeType] at said
  split at said
  · cases said
  · cases said
    exact both

/-- Whether a run may end like this where a value of type `t` is expected. -/
def SafeResult : Except RunError Val → Ty → Prop
  | .ok v, t => v.Conforms t
  | .error (.violation _), _ => False
  | .error _, _ => True

/-- An executor keeps the promises of an environment if what it yields for a task conforms to what
the type of the task yields. -/
def Executor.Conforms {σ : Type} (e : Executor σ) (env : Environment) : Prop :=
  ∀ task t, env.get? task = some t → ∀ input s v,
    (e.respond task input s).1.result = .ok v → v.Conforms t.arrow.2

/-! ## Plans and processes -/

section Yields

variable (env : Environment) (types : SortedMap NodeId Ty)

/-- Whether `t` is what the node of a site yields according to its recorded type. -/
def Site.Promises (site : Site) (t : Ty) : Prop :=
  ∃ u, types.get? site.node = some u ∧ u.arrow.2 = t

/-- What a plan yields according to the types of its nodes. -/
inductive Plan.Yields : Plan → Ty → Prop
  | task {site t} :
    env.get? site.name = some t → site.Promises types t.arrow.2 → Yields (.task site) t.arrow.2
  | named {site body t} : site.Promises types t → Yields body t → Yields (.named site body) t
  | seq {outer inner t u} : Yields outer t → Yields inner u → Yields (.seq outer inner) t
  | par {left right a b} : Yields left a → Yields right b → Yields (.par left right) (.prod a b)

/-- What a process yields according to the types of its nodes and the replies to its calls. -/
inductive Process.Yields : Process → Ty → Prop
  | done {r t} : SafeResult r t → Yields (.done r) t
  | call {c t} :
    c.site.Promises types t → (∀ v, c.reply.result = .ok v → v.Conforms t) → Yields (.call c) t
  | named {site body t} : site.Promises types t → Yields body t → Yields (.named site body) t
  | seq {outer inner t u} : outer.Yields env types t → Yields inner u → Yields (.seq outer inner) t
  | par {flag left right a b} :
    Yields left a → Yields right b → Yields (.par flag left right) (.prod a b)

end Yields

variable {p : Program} {env : Environment} {types : SortedMap NodeId Ty}

/-- An error that is safe somewhere is safe everywhere. -/
theorem Process.Yields.of_error {e : RunError} {t u : Ty}
    (h : Process.Yields env types (.done (.error e)) t) :
    Process.Yields env types (.done (.error e)) u := by
  cases h with
  | done safe =>
    refine .done ?_
    cases e with
    | violation => exact safe
    | _ => trivial

/-- The plan of a node yields what the type of the node says, if all types are recorded. -/
theorem yields_of_hasType (wf : p.WellFormed) (ground : env.Ground)
    (recorded : ∀ n ∈ p.nodes, ∀ t, types.get? n.id = some t ↔ p.HasType env n t) {n : Node}
    {t : Ty} (typed : p.HasType env n t) (mem : n ∈ p.nodes) {plan : Plan}
    (resolves : p.Resolves n plan) :
    plan.Yields env types t.arrow.2 := by
  have own : ∀ {n t}, n ∈ p.nodes → p.HasType env n t → types.get? n.id = some t :=
    fun mem typed ↦ (recorded _ mem _).2 typed
  induction typed generalizing plan with
  | @task id name span t none found =>
    cases resolves with
    | task _ => exact .task (t := t) found ⟨_, own mem (.task none found), rfl⟩
    | named some _ => cases none.symm.trans some
  | named stands typed ih =>
    cases resolves with
    | task none => cases none.symm.trans stands
    | named stands' resolves =>
      obtain rfl := Option.some.inj (stands.symm.trans stands')
      have mem' := wf.body_mem_nodes mem stands
      exact .named ⟨_, own mem (.named stands typed), rfl⟩ (ih mem' resolves)
  | composition inner outer _ ihInner ihOuter =>
    cases resolves with
    | composition outer' inner' =>
      obtain ⟨-, hb⟩ := Ty.vars_pair_eq_nil_iff.1 (inner.vars_eq_nil ground)
      have yieldsInner := ihInner (wf.operands_mem_nodes mem).2 inner'
      have yieldsOuter := ihOuter (wf.operands_mem_nodes mem).1 outer'
      obtain ⟨hb', -⟩ := Ty.vars_pair_eq_nil_iff.1 (outer.vars_eq_nil ground)
      rw [Ty.apply_bind_of_vars_eq_nil hb, Ty.apply_bind_of_vars_eq_nil hb']
      exact .seq yieldsOuter yieldsInner
  | product left right _ ihLeft ihRight =>
    cases resolves with
    | product left' right' =>
      have yieldsLeft := ihLeft (wf.branches_mem_nodes mem).1 left'
      have yieldsRight := ihRight (wf.branches_mem_nodes mem).2 right'
      obtain ⟨ha, -⟩ := Ty.vars_pair_eq_nil_iff.1 (left.vars_eq_nil ground)
      obtain ⟨ha', -⟩ := Ty.vars_pair_eq_nil_iff.1 (right.vars_eq_nil ground)
      rw [Ty.apply_bind_of_vars_eq_nil ha, Ty.apply_bind_of_vars_eq_nil ha']
      exact .par yieldsLeft yieldsRight
  | functor _ ih =>
    cases resolves with
    | functor resolves => exact ih (wf.declared_mem_nodes mem) resolves

/-! ## Runs under guard -/

/-- A guard has nothing against a value that conforms to what its site promises. -/
theorem Guard.violation?_eq_none {g : Guard} {site : Site} {t : Ty} {v : Val}
    (promises : site.Promises g.nodeTypes t) (conforms : v.Conforms t) :
    g.violation? site v = none := by
  obtain ⟨u, found, rfl⟩ := promises
  cases said : v.runtimeType with
  | none => simp [violation?, found, said]
  | some a => simp [violation?, found, said, conforms a said]

namespace Machine

variable {σ : Type} {m : Machine σ (List Violation)} {g : Guard} {site : Site} {t : Ty}
  {w w' : World σ (List Violation)} {q q' : Process}

/-- A guard lets a value that conforms to what its site promises pass. -/
theorem observe_eq_of_conforms (watched : m.observer = g.observer)
    (promises : site.Promises g.nodeTypes t) {v : Val} (conforms : v.Conforms t)
    (w : World σ (List Violation)) : m.observe site v w = (.done (.ok v), w) := by
  refine Machine.observe_eq (fun o ↦ ?_) w
  simp only [watched, Guard.observer, Guard.violation?_eq_none promises conforms]

/-- What a call ends with is safe, and the guard finds nothing. -/
theorem finish_yields (watched : m.observer = g.observer) {c : Call}
    (promises : c.site.Promises g.nodeTypes t)
    (conforms : ∀ v, c.reply.result = .ok v → v.Conforms t) (w : World σ (List Violation)) :
    (m.finish c w).1.Yields env g.nodeTypes t ∧ (m.finish c w).2.observer = w.observer := by
  rw [Machine.finish]
  split
  next v ok =>
    rw [observe_eq_of_conforms watched promises (conforms v ok)]
    exact ⟨.done (conforms v ok), by simp⟩
  next f _ =>
    refine ⟨.done ?_, by simp⟩
    rw [Call.blame]
    split <;> trivial

theorem begin_yields (watched : m.observer = g.observer) (keeps : m.executor.Conforms env)
    (promises : site.Promises g.nodeTypes t) {u : Ty} (declared : env.get? site.name = some u)
    (yields : u.arrow.2 = t) (v : Val) (w : World σ (List Violation)) :
    (m.begin site v w).1.Yields env g.nodeTypes t ∧ (m.begin site v w).2.observer = w.observer := by
  subst yields
  rw [Machine.begin]
  split
  · exact ⟨.done trivial, rfl⟩
  · dsimp only
    split
    · exact finish_yields watched promises (keeps _ _ declared v w.executor) _
    · exact ⟨.call promises (keeps _ _ declared v w.executor), rfl⟩

theorem Leaves.yields (watched : m.observer = g.observer) (promises : site.Promises g.nodeTypes t)
    (h : m.Leaves site q w q' w') (yields : q.Yields env g.nodeTypes t) :
    q'.Yields env g.nodeTypes t ∧ w'.observer = w.observer := by
  cases h with
  | ok =>
    cases yields with
    | done conforms =>
      rw [observe_eq_of_conforms watched promises conforms]
      exact ⟨.done conforms, rfl⟩
  | error => exact ⟨yields, rfl⟩
  | wait => exact ⟨.named promises yields, rfl⟩

theorem Joins.yields {a b : Ty} {left right : Process} (h : m.Joins w left right q' w')
    (yieldsLeft : left.Yields env types a) (yieldsRight : right.Yields env types b) :
    q'.Yields env types (.prod a b) ∧ w'.observer = w.observer := by
  cases h with
  | ok =>
    cases yieldsLeft with
    | done left =>
      cases yieldsRight with
      | done right => exact ⟨.done (Val.Conforms.pair left right), rfl⟩
  | left => exact ⟨yieldsLeft.of_error, rfl⟩
  | right => exact ⟨yieldsRight.of_error, rfl⟩
  | dropLeft => exact ⟨yieldsRight.of_error, by simp⟩
  | dropRight => exact ⟨yieldsLeft.of_error, by simp⟩
  | wait => exact ⟨.par yieldsLeft yieldsRight, rfl⟩

/-- What a plan that is started has got to yields what the plan yields, and the guard has found
nothing on the way. -/
theorem Starts.yields (watched : m.observer = g.observer) (keeps : m.executor.Conforms env)
    {plan : Plan} {v : Val} (h : m.Starts plan v w q w') {t : Ty}
    (yields : plan.Yields env g.nodeTypes t) :
    q.Yields env g.nodeTypes t ∧ w'.observer = w.observer := by
  induction h generalizing t with
  | task =>
    cases yields with
    | task declared promises => exact begin_yields watched keeps promises declared rfl _ _
  | named _ leaves ih =>
    cases yields with
    | named promises body =>
      obtain ⟨body, same⟩ := ih body
      obtain ⟨yields, same'⟩ := leaves.yields watched promises body
      exact ⟨yields, same'.trans same⟩
  | seqOk _ _ ihInner ihOuter =>
    cases yields with
    | seq outer inner =>
      obtain ⟨-, same⟩ := ihInner inner
      obtain ⟨yields, same'⟩ := ihOuter outer
      exact ⟨yields, same'.trans same⟩
  | seqError _ ih =>
    cases yields with
    | seq outer inner =>
      obtain ⟨failed, same⟩ := ih inner
      exact ⟨failed.of_error, same⟩
  | seqWait _ _ ih =>
    cases yields with
    | seq outer inner =>
      obtain ⟨inner, same⟩ := ih inner
      exact ⟨.seq outer inner, same⟩
  | parEnds _ ends ih =>
    cases yields with
    | par left right =>
      obtain ⟨e, rfl, -⟩ := m.ends_iff.1 ends
      obtain ⟨failed, same⟩ := ih left
      exact ⟨failed.of_error, same⟩
  | par _ _ _ joins ihLeft ihRight =>
    cases yields with
    | par left right =>
      obtain ⟨left, same⟩ := ihLeft left
      obtain ⟨right, same'⟩ := ihRight right
      obtain ⟨yields, same''⟩ := joins.yields left right
      exact ⟨yields, same''.trans (same'.trans same)⟩

/-- A process that is resumed goes on to yield what it yielded, and the guard has found nothing on
the way. -/
theorem Resumes.yields (watched : m.observer = g.observer) (keeps : m.executor.Conforms env)
    {settle : Call → World σ (List Violation) → Process × World σ (List Violation)}
    (settled : ∀ {c w t}, Process.Yields env g.nodeTypes (.call c) t →
      (settle c w).1.Yields env g.nodeTypes t ∧ (settle c w).2.observer = w.observer)
    (h : m.Resumes settle q w q' w') {t : Ty} (yields : q.Yields env g.nodeTypes t) :
    q'.Yields env g.nodeTypes t ∧ w'.observer = w.observer := by
  induction h generalizing t with
  | done => exact ⟨yields, rfl⟩
  | call => exact settled yields
  | named _ leaves ih =>
    cases yields with
    | named promises body =>
      obtain ⟨body, same⟩ := ih body
      obtain ⟨yields, same'⟩ := leaves.yields watched promises body
      exact ⟨yields, same'.trans same⟩
  | seqOk _ starts ih =>
    cases yields with
    | seq outer inner =>
      obtain ⟨-, same⟩ := ih inner
      obtain ⟨yields, same'⟩ := starts.yields watched keeps outer
      exact ⟨yields, same'.trans same⟩
  | seqError _ ih =>
    cases yields with
    | seq outer inner =>
      obtain ⟨failed, same⟩ := ih inner
      exact ⟨failed.of_error, same⟩
  | seqWait _ _ ih =>
    cases yields with
    | seq outer inner =>
      obtain ⟨inner, same⟩ := ih inner
      exact ⟨.seq outer inner, same⟩
  | parEnds _ ends ih =>
    cases yields with
    | par left right =>
      obtain ⟨e, rfl, -⟩ := m.ends_iff.1 ends
      obtain ⟨failed, same⟩ := ih left
      exact ⟨failed.of_error, by simpa using same⟩
  | par _ _ _ joins ihLeft ihRight =>
    cases yields with
    | par left right =>
      obtain ⟨left, same⟩ := ihLeft left
      obtain ⟨right, same'⟩ := ihRight right
      obtain ⟨yields, same''⟩ := joins.yields left right
      exact ⟨yields, same''.trans (same'.trans same)⟩

theorem settleDue_yields (watched : m.observer = g.observer) {c : Call}
    (h : Process.Yields env g.nodeTypes (.call c) t) :
    (m.settleDue c w).1.Yields env g.nodeTypes t ∧ (m.settleDue c w).2.observer = w.observer := by
  unfold settleDue
  split
  · cases h with
    | call promises conforms => exact finish_yields watched promises conforms w
  · exact ⟨h, rfl⟩

theorem settleStopped_yields {c : Call} (h : Process.Yields env types (.call c) t) :
    (settleStopped c w).1.Yields env types t ∧ (settleStopped c w).2.observer = w.observer := by
  unfold settleStopped
  split
  · exact ⟨.done trivial, rfl⟩
  · exact ⟨h, rfl⟩

theorem settle_yields (watched : m.observer = g.observer) {c : Call}
    (h : Process.Yields env g.nodeTypes (.call c) t) :
    (m.settle c w).1.Yields env g.nodeTypes t ∧ (m.settle c w).2.observer = w.observer := by
  unfold settle
  split
  · exact settleStopped_yields h
  · exact settleDue_yields watched h

/-- A run of a plan under guard ends safely, and the guard has found nothing. -/
theorem run_yields (watched : m.observer = g.observer) (keeps : m.executor.Conforms env)
    {plan : Plan} (yields : plan.Yields env g.nodeTypes t) (input : Val) (s : σ) (clock : Nat)
    (cancelAfter : Option Nat) :
    SafeResult (m.run plan input s [] clock cancelAfter).1 t ∧
      (m.run plan input s [] clock cancelAfter).2.observer = [] := by
  have ends : (Process.done (m.run plan input s [] clock cancelAfter).1).Yields env g.nodeTypes t ∧
      (m.run plan input s [] clock cancelAfter).2.observer = [] := by
    refine m.run_spec (I := fun q w ↦ q.Yields env g.nodeTypes t ∧ w.observer = []) ?_ ?_ ?_ ?_
    · exact fun starts ↦ starts.yields watched keeps yields
    · rintro q w q' w' ⟨yields, silent⟩ resumes
      obtain ⟨yields, same⟩ := resumes.yields watched keeps settleStopped_yields yields
      exact ⟨yields, same.trans silent⟩
    · rintro q w t' q' w' ⟨yields, silent⟩ - resumes
      obtain ⟨yields, same⟩ := resumes.yields watched keeps (settle_yields watched) yields
      exact ⟨yields, same.trans silent⟩
    · rintro q w t' c ⟨yields, silent⟩ - - -
      exact ⟨yields, silent⟩
  obtain ⟨⟨safe⟩, silent⟩ := ends
  exact ⟨safe, silent⟩

end Machine

/-- The guarded run of a parsed program that passed its check finds no violation, strict or not, and
a value that it yields conforms to the type of the program. -/
theorem guarded_run_of_checkWith_success {text : String} (parsed : Program.parse text = .ok p)
    {rules : List LintRule} {base : Environment} (ground : (p.environment base).Ground)
    (success : (p.checkWith rules base).success = true) {σ : Type} {e : Executor σ}
    (keeps : e.Conforms (p.environment base)) (strict : Bool) (policy : Policy) (input : Val)
    (s : σ) (clock : Nat) (cancelAfter : Option Nat) :
    let g : Guard := ⟨(p.checkWith rules base).nodeTypes, strict⟩
    let r := (Machine.mk e g.observer policy).run p.plan input s [] clock cancelAfter
    (∀ v, r.1 ≠ .error (.violation v)) ∧ r.2.observer = [] ∧
      ∀ v, r.1 = .ok v → ∃ t, (p.checkWith rules base).programType = some t ∧
        v.Conforms t.arrow.2 := by
  intro g r
  have wf := Program.wellFormed_of_parse parsed
  have report := wf.exact_checkWith rules base
  obtain ⟨t, recorded⟩ := Option.isSome_iff_exists.1
    (report.complete.1 (report.success.1 success) p.root p.root_mem_nodes)
  have typed := (report.types p.root p.root_mem_nodes t).1 recorded
  have type := (wf.programType_checkWith success t).2 typed
  have yields := yields_of_hasType wf ground report.types typed p.root_mem_nodes wf.resolves_root
  obtain ⟨safe, silent⟩ :=
    Machine.run_yields (m := ⟨e, g.observer, policy⟩) rfl keeps yields input s clock cancelAfter
  refine ⟨fun v failed ↦ ?_, silent, fun v ok ↦ ⟨t, type, ?_⟩⟩
  · rwa [show _ = _ from failed] at safe
  · rwa [show _ = _ from ok] at safe

/-- Soundness for a program with a functor and a product, whose only task yields what it
promises. -/
theorem guarded_run_of_tagged_pair :
    ∃ p, Program.parse "a :: X -> Y\nf = a\nf × a" = .ok p ∧
      (p.checkWith LintRule.all .empty).success = true ∧
      (let g : Guard := ⟨(p.checkWith LintRule.all .empty).nodeTypes, true⟩
       let e : Executor Unit := ⟨fun _ _ s ↦ (.now (.ok (.data (some "Y") .null)), s)⟩
       let r := (Machine.mk e g.observer .failFast).run p.plan .unit () [] 0 none
       (∀ v, r.1 ≠ .error (.violation v)) ∧ r.2.observer = [] ∧
        ∀ v, r.1 = .ok v → ∃ t, (p.checkWith LintRule.all .empty).programType = some t ∧
          v.Conforms t.arrow.2) := by
  obtain ⟨p, parsed, success, promised⟩ : ∃ p, Program.parse "a :: X -> Y\nf = a\nf × a" = .ok p ∧
      (p.checkWith LintRule.all .empty).success = true ∧
      ∀ e ∈ (p.environment .empty).entries, e.2 = .fn (.mono "X") (.mono "Y") :=
    ⟨_, Except.eq_ok_get (by decide), by decide, by decide⟩
  refine ⟨p, parsed, success, guarded_run_of_checkWith_success parsed ?_ success ?_ true .failFast
    .unit () 0 none⟩
  · intro name t declared
    obtain rfl : t = _ := promised _ (Environment.mem_entries declared)
    rfl
  · intro task t declared input s v yields
    obtain rfl : t = _ := promised _ (Environment.mem_entries declared)
    cases yields
    rintro a ⟨⟩
    rfl

end Taskflow
