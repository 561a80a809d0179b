import Taskflow.Proofs.Run.Quiet
import Taskflow.Proofs.Typing.Soundness
import Taskflow.Proofs.Workflow.Dispatch

/-!
# Dry runs

A dry run calls no task: the simulated executor answers with placeholders in the shape of declared
types.  What a placeholder says of itself follows from the types alone (`Ty.echo`), so what each
place of a plan will say in a dry run is known before the run (`Plan.echo`).  A variable in the type
of a task is answered by the whole input of the task, whatever the type checker has matched it with;
this is the one thing that can contradict an inferred type, and it shows at functor names only.

So a dry run under a strict guard yields a value just if the plan *fits*, that is if no functor name
promises what its body will not say (`dry_run_ok_iff`).  The induction is on the steps of the run:
every process on the way fits just if the plan does, and says the same in the end (`Process.Dry`).
-/

namespace Taskflow

/-! ## What placeholders say -/

/-- What a pair says of itself, from what its sides say. -/
def Val.bothSay : Option Ty → Option Ty → Option Ty
  | none, none => none
  | l, r => some (.prod (l.getD Val.unknown) (r.getD Val.unknown))

theorem Val.runtimeType_pair (v w : Val) :
    (Val.pair v w).runtimeType = Val.bothSay v.runtimeType w.runtimeType := rfl

namespace Ty

/-- What a placeholder of a type says of itself if it is made from an input that says `said`. -/
def echo (said : Option Ty) : Ty → Option Ty
  | .unit => some .unit
  | .mono name => some (.mono name)
  | .prod left right => Val.bothSay (left.echo said) (right.echo said)
  | .var _ => said
  | .fn _ _ => none

theorem runtimeType_placeholder (task : String) (input : Val) (t : Ty) :
    (Val.placeholder task input t).runtimeType = t.echo input.runtimeType := by
  induction t with
  | prod left right ihLeft ihRight =>
    rw [Val.placeholder, Val.runtimeType_pair, ihLeft, ihRight, echo]
  | _ => rfl

/-- A placeholder does not contradict the type that it is made for. -/
theorem compatible_echo {said : Option Ty} {t a : Ty} (h : t.echo said = some a) :
    t.compatible a = true := by
  induction t generalizing a with
  | unit | mono =>
    cases h
    simp [compatible]
  | var => rfl
  | fn => cases h
  | prod left right ihLeft ihRight =>
    have sideLeft := compatible_getD_unknown fun a answer ↦ ihLeft answer
    have sideRight := compatible_getD_unknown fun a answer ↦ ihRight answer
    have both : (prod left right).compatible (.prod ((left.echo said).getD Val.unknown)
        ((right.echo said).getD Val.unknown)) = true := by
      rw [compatible, sideLeft, sideRight]
      rfl
    rw [echo] at h
    unfold Val.bothSay at h
    split at h
    · cases h
    · cases h
      exact both

/-- A type without variables is answered in one way. -/
theorem echo_of_vars_eq_nil {t : Ty} (ground : t.vars = []) (said said' : Option Ty) :
    t.echo said = t.echo said' := by
  induction t with
  | unit | mono | fn => rfl
  | var a => simp [vars, collectVars] at ground
  | prod left right ihLeft ihRight =>
    obtain ⟨hl, hr⟩ := vars_pair_eq_nil_iff.1 ground
    rw [echo, echo, ihLeft hl, ihRight hr]

end Ty

/-! ## Plans that fit -/

section Fits

variable (env : Environment) (types : SortedMap NodeId Ty)

/-- Whether nothing that is promised at a site contradicts what is said there. -/
def Site.Admits (site : Site) (said : Option Ty) : Prop :=
  ∀ t a, site.Promises types t → said = some a → t.compatible a = true

namespace Plan

/-- What the value of a plan says of itself in a dry run on an input that says `said`. -/
def echo : Plan → Option Ty → Option Ty
  | .task site, said => (env.get? site.name).bind fun t ↦ t.arrow.2.echo said
  | .named _ body, said => body.echo said
  | .seq outer inner, said => outer.echo (inner.echo said)
  | .par left right, said => Val.bothSay (left.echo said) (right.echo said)

/-- Whether what each functor name of a plan promises is what its body says in a dry run. -/
def Fits : Plan → Option Ty → Prop
  | .task _, _ => True
  | .named site body, said => body.Fits said ∧ site.Admits types (body.echo env said)
  | .seq outer inner, said => inner.Fits said ∧ outer.Fits (inner.echo env said)
  | .par left right, said => left.Fits said ∧ right.Fits said

/-- Whether each task of a plan is declared, and promises what it is declared to yield. -/
def Declared : Plan → Prop
  | .task site => ∃ t, env.get? site.name = some t ∧ site.Promises types t.arrow.2
  | .named _ body => body.Declared
  | .seq outer inner => outer.Declared ∧ inner.Declared
  | .par left right => left.Declared ∧ right.Declared

end Plan

namespace Process

/-- What the value of a process will say of itself. -/
def echo : Process → Option Ty
  | .done (.ok v) => v.runtimeType
  | .done (.error _) => none
  | .call c => c.reply.result.toOption.bind Val.runtimeType
  | .named _ body => body.echo
  | .seq outer inner => outer.echo env inner.echo
  | .par _ left right => Val.bothSay left.echo right.echo

/-- Whether nothing in a process has failed, and no functor name in it promises what its body will
not say. -/
def Fits : Process → Prop
  | .done (.ok _) => True
  | .done (.error _) => False
  | .call _ => True
  | .named site body => body.Fits ∧ site.Admits types (body.echo env)
  | .seq outer inner => inner.Fits ∧ outer.Fits env types (inner.echo env)
  | .par _ left right => left.Fits ∧ right.Fits

/-- Whether each call of a process yields what is promised where it is made, and each task that is
still to be called is declared. -/
def Declared : Process → Prop
  | .done _ => True
  | .call c => ∃ v, c.reply.result = .ok v ∧ c.site.Admits types v.runtimeType
  | .named _ body => body.Declared
  | .seq outer inner => outer.Declared env types ∧ inner.Declared
  | .par _ left right => left.Declared ∧ right.Declared

/-- What a dry run has got to.  If `P` holds then it will end in a value that says `said`; if not
then it will fail. -/
structure Dry (q : Process) (P : Prop) (said : Option Ty) : Prop where
  declared : q.Declared env types
  fits : q.Fits env types ↔ P
  echo : P → q.echo env = said

end Process

end Fits

variable {env : Environment} {types : SortedMap NodeId Ty}

/-- A simulated call cancels nothing. -/
theorem Executor.quiet_simulated (env : Environment) (latency : Nat) :
    (Executor.simulated env latency).Quiet := by
  intro task input s
  dsimp only [simulated]
  split <;> exact ⟨rfl, rfl⟩

/-- A guard finds nothing just where what is promised admits what is said. -/
theorem Guard.violation?_eq_none_iff {g : Guard} {site : Site} {v : Val} :
    g.violation? site v = none ↔ site.Admits g.nodeTypes v.runtimeType := by
  constructor
  · rintro none t a ⟨u, found, rfl⟩ said
    by_contra clash
    simp [violation?, found, said, clash] at none
  · intro admits
    cases found : g.nodeTypes.get? site.node with
    | none => simp [violation?, found]
    | some u =>
      cases said : v.runtimeType with
      | none => simp [violation?, found, said]
      | some a => simp [violation?, found, said, admits _ a ⟨u, found, rfl⟩ said]

namespace Process.Dry

variable {P Q : Prop} {a b : Option Ty}

theorem ok_iff {v : Val} : (Process.done (.ok v)).Dry env types P a ↔ P ∧ v.runtimeType = a := by
  constructor
  · intro dry
    have holds := dry.fits.1 trivial
    exact ⟨holds, dry.echo holds⟩
  · rintro ⟨holds, said⟩
    exact ⟨trivial, iff_of_true trivial holds, fun _ ↦ said⟩

theorem error_iff {e : RunError} : (Process.done (.error e)).Dry env types P a ↔ ¬ P := by
  constructor
  · exact fun dry holds ↦ dry.fits.2 holds
  · intro fails
    exact ⟨trivial, iff_of_false id fails, fun holds ↦ (fails holds).elim⟩

/-- A process has got to itself. -/
theorem self {q : Process} (declared : q.Declared env types) :
    q.Dry env types (q.Fits env types) (q.echo env) :=
  ⟨declared, Iff.rfl, fun _ ↦ rfl⟩

theorem trans {q q' : Process} (next : q'.Dry env types (q.Fits env types) (q.echo env))
    (dry : q.Dry env types P a) : q'.Dry env types P a where
  declared := next.declared
  fits := next.fits.trans dry.fits
  echo := fun holds ↦ (next.echo (dry.fits.2 holds)).trans (dry.echo holds)

/-- What holds anyway may be asked for as well. -/
theorem and_left {q : Process} (dry : q.Dry env types Q a) (holds : P) :
    q.Dry env types (P ∧ Q) a where
  declared := dry.declared
  fits := dry.fits.trans (and_iff_right holds).symm
  echo := fun both ↦ dry.echo both.2

theorem named {site : Site} {q : Process} (dry : q.Dry env types P a) :
    (Process.named site q).Dry env types (P ∧ site.Admits types a) a where
  declared := dry.declared
  fits := by
    rw [Process.Fits, dry.fits]
    exact and_congr_right fun holds ↦ by rw [dry.echo holds]
  echo := fun holds ↦ dry.echo holds.1

theorem seq {outer : Plan} {q : Process} (declared : outer.Declared env types)
    (dry : q.Dry env types P a) :
    (Process.seq outer q).Dry env types (P ∧ outer.Fits env types a) (outer.echo env a) where
  declared := ⟨declared, dry.declared⟩
  fits := by
    rw [Process.Fits, dry.fits]
    exact and_congr_right fun holds ↦ by rw [dry.echo holds]
  echo := fun holds ↦ by rw [Process.echo, dry.echo holds.1]

theorem par {flag : Bool} {left right : Process} (dryLeft : left.Dry env types P a)
    (dryRight : right.Dry env types Q b) :
    (Process.par flag left right).Dry env types (P ∧ Q) (Val.bothSay a b) where
  declared := ⟨dryLeft.declared, dryRight.declared⟩
  fits := and_congr dryLeft.fits dryRight.fits
  echo := fun holds ↦ by rw [Process.echo, dryLeft.echo holds.1, dryRight.echo holds.2]

end Process.Dry

namespace Machine

variable {m : Machine Unit (List Violation)} {latency : Nat} {w w' : World Unit (List Violation)}
  {q q' : Process} {P Q : Prop} {a b : Option Ty}

theorem observe_dry (watched : m.observer = (Guard.mk types true).observer) (site : Site) (v : Val)
    (w : World Unit (List Violation)) :
    (m.observe site v w).1.Dry env types (site.Admits types v.runtimeType) v.runtimeType := by
  have allowed : Guard.violation? ⟨types, true⟩ site v = none ↔
      site.Admits types v.runtimeType := Guard.violation?_eq_none_iff
  cases found : Guard.violation? ⟨types, true⟩ site v with
  | none =>
    simp only [Machine.observe, watched, Guard.observer, found]
    exact Process.Dry.ok_iff.2 ⟨allowed.1 found, rfl⟩
  | some violation =>
    simp only [Machine.observe, watched, Guard.observer, found, if_true]
    refine Process.Dry.error_iff.2 fun admits ↦ ?_
    rw [allowed.2 admits] at found
    cases found

/-- A call that is over has yielded what it was going to yield. -/
theorem finish_dry (watched : m.observer = (Guard.mk types true).observer) {c : Call}
    (dry : (Process.call c).Dry env types P a) (w : World Unit (List Violation)) :
    (m.finish c w).1.Dry env types P a := by
  obtain ⟨⟨v, ok, admits⟩, fits, echo⟩ := dry
  have holds : P := fits.1 trivial
  have said : v.runtimeType = a := by
    rw [← echo holds, Process.echo, ok]
    rfl
  rw [Machine.finish, ok]
  have observed : (Machine.observe m c.site v _).1.Dry env types _ v.runtimeType :=
    observe_dry watched c.site v ((w.cancelBy c.reply).close c.ticket c.outcome)
  obtain ⟨declared, fits', echo'⟩ := observed
  exact ⟨declared, fits'.trans (iff_of_true admits holds), fun _ ↦ (echo' admits).trans said⟩

/-- A task that is declared is answered with a placeholder. -/
theorem begin_dry (watched : m.observer = (Guard.mk types true).observer)
    (simulated : m.executor = .simulated env latency) {site : Site}
    (declared : (Plan.task site).Declared env types) (v : Val) (going : w.stopped = false) :
    (m.begin site v w).1.Dry env types True ((Plan.task site).echo env v.runtimeType) := by
  obtain ⟨t, found, promises⟩ := declared
  have reply : (m.called site v w).reply = ⟨latency, false, false,
      .ok (Val.placeholder site.name v t.arrow.2), false⟩ := by
    rw [Machine.called, simulated, Executor.simulated]
    simp only [found]
  have said : (Plan.task site).echo env v.runtimeType = t.arrow.2.echo v.runtimeType := by
    rw [Plan.echo, found]
    rfl
  have admits : site.Admits types (t.arrow.2.echo v.runtimeType) := by
    rintro u a ⟨u', found', rfl⟩ answer
    obtain ⟨u'', found'', same⟩ := promises
    obtain rfl := Option.some.inj (found'.symm.trans found'')
    rw [same]
    exact Ty.compatible_echo answer
  have dry : (Process.call (m.called site v w)).Dry env types True
      ((Plan.task site).echo env v.runtimeType) := by
    have shape := Ty.runtimeType_placeholder site.name v t.arrow.2
    refine ⟨⟨_, congrArg Reply.result reply, ?_⟩, Iff.rfl, fun _ ↦ ?_⟩
    · rw [shape]
      exact admits
    · rw [said, ← shape, Process.echo, reply]
      rfl
  rw [Machine.begin, if_neg (by simp [going])]
  dsimp only
  split
  · exact finish_dry watched dry _
  · exact dry

theorem Leaves.dry (watched : m.observer = (Guard.mk types true).observer) {site : Site}
    (h : m.Leaves site q w q' w') (dry : q.Dry env types P a) :
    q'.Dry env types (P ∧ site.Admits types a) a := by
  cases h with
  | @ok v =>
    obtain ⟨holds, rfl⟩ := Process.Dry.ok_iff.1 dry
    exact (observe_dry watched site v w).and_left holds
  | error =>
    have fails := Process.Dry.error_iff.1 dry
    exact Process.Dry.error_iff.2 fun both ↦ fails both.1
  | wait => exact dry.named

theorem Joins.dry {left right : Process} (h : m.Joins w left right q' w')
    (dryLeft : left.Dry env types P a) (dryRight : right.Dry env types Q b) :
    q'.Dry env types (P ∧ Q) (Val.bothSay a b) := by
  cases h with
  | ok =>
    obtain ⟨holdsLeft, rfl⟩ := Process.Dry.ok_iff.1 dryLeft
    obtain ⟨holdsRight, rfl⟩ := Process.Dry.ok_iff.1 dryRight
    exact Process.Dry.ok_iff.2 ⟨⟨holdsLeft, holdsRight⟩, rfl⟩
  | left | dropRight =>
    have fails := Process.Dry.error_iff.1 dryLeft
    exact Process.Dry.error_iff.2 fun both ↦ fails both.1
  | right | dropLeft =>
    have fails := Process.Dry.error_iff.1 dryRight
    exact Process.Dry.error_iff.2 fun both ↦ fails both.2
  | wait => exact dryLeft.par dryRight

/-- A plan that is started gets to a process that fits just if the plan does. -/
theorem Starts.dry (watched : m.observer = (Guard.mk types true).observer)
    (simulated : m.executor = .simulated env latency) {plan : Plan} {v : Val}
    (h : m.Starts plan v w q w') (declared : plan.Declared env types) (going : w.stopped = false) :
    q.Dry env types (plan.Fits env types v.runtimeType) (plan.echo env v.runtimeType) := by
  have quiet : m.executor.Quiet := by
    rw [simulated]
    exact Executor.quiet_simulated env latency
  have goes : ∀ {plan v w q w'}, m.Starts plan v w q w' → w.stopped = false →
      w'.stopped = false :=
    fun h going ↦ (h.scopes quiet).2.stopped_eq.trans going
  induction h with
  | task => exact begin_dry watched simulated declared _ going
  | named _ leaves ih => exact leaves.dry watched (ih declared going)
  | seqOk inner _ ihInner ihOuter =>
    obtain ⟨fits, said⟩ := Process.Dry.ok_iff.1 (ihInner declared.2 going)
    have dry := ihOuter declared.1 (goes inner going)
    rw [said] at dry
    exact dry.and_left fits
  | seqError _ ih =>
    have fails := Process.Dry.error_iff.1 (ih declared.2 going)
    exact Process.Dry.error_iff.2 fun both ↦ fails both.1
  | seqWait _ _ ih => exact (ih declared.2 going).seq declared.1
  | parEnds _ ends ih =>
    obtain ⟨e, rfl, -⟩ := m.ends_iff.1 ends
    have fails := Process.Dry.error_iff.1 (ih declared.1 (by simpa using going))
    exact Process.Dry.error_iff.2 fun both ↦ fails both.1
  | par left _ _ joins ihLeft ihRight =>
    have inside : (World.enter _ false).stopped = false := (World.stopped_enter _).trans going
    exact joins.dry (ihLeft declared.1 inside) (ihRight declared.2 (goes left inside))

theorem settleDue_dry (watched : m.observer = (Guard.mk types true).observer) {c : Call}
    (dry : (Process.call c).Dry env types P a) (w : World Unit (List Violation)) :
    (m.settleDue c w).1.Dry env types P a := by
  unfold settleDue
  split
  · exact finish_dry watched dry w
  · exact dry

/-- A process that is resumed gets to one that fits just if it did. -/
theorem Resumes.dry (watched : m.observer = (Guard.mk types true).observer)
    (simulated : m.executor = .simulated env latency) (h : m.Resumes m.settleDue q w q' w')
    (quietly : q.Quiet) (going : w.stopped = false) (declared : q.Declared env types) :
    q'.Dry env types (q.Fits env types) (q.echo env) := by
  have quiet : m.executor.Quiet := by
    rw [simulated]
    exact Executor.quiet_simulated env latency
  have goes : ∀ {q w q' w'}, m.Resumes m.settleDue q w q' w' → q.Quiet → w.stopped = false →
      w'.stopped = false :=
    fun h quietly going ↦ (h.scopes quiet settleDue_scopes quietly).2.stopped_eq.trans going
  induction h with
  | done => exact .self declared
  | call => exact settleDue_dry watched (.self declared) _
  | named _ leaves ih => exact leaves.dry watched (ih quietly going declared)
  | seqOk inner starts ih =>
    obtain ⟨fits, said⟩ := Process.Dry.ok_iff.1 (ih quietly going declared.2)
    have dry := starts.dry watched simulated declared.1 (goes inner quietly going)
    rw [said] at dry
    exact dry.and_left fits
  | seqError _ ih =>
    have fails := Process.Dry.error_iff.1 (ih quietly going declared.2)
    exact Process.Dry.error_iff.2 fun both ↦ fails both.1
  | seqWait _ _ ih => exact (ih quietly going declared.2).seq declared.1
  | parEnds _ ends ih =>
    obtain ⟨rfl, quietLeft, -⟩ := quietly
    obtain ⟨e, rfl, -⟩ := m.ends_iff.1 ends
    have fails := Process.Dry.error_iff.1 (ih quietLeft (by simpa using going) declared.1)
    exact Process.Dry.error_iff.2 fun both ↦ fails both.1
  | par left _ _ joins ihLeft ihRight =>
    obtain ⟨rfl, quietLeft, quietRight⟩ := quietly
    have inside : (World.enter _ false).stopped = false := (World.stopped_enter _).trans going
    have outside := goes left quietLeft inside
    exact joins.dry (ihLeft quietLeft inside declared.1) (ihRight quietRight outside declared.2)

/-- The dry run of a plan ends in a value just if the plan fits. -/
theorem run_dry (watched : m.observer = (Guard.mk types true).observer)
    (simulated : m.executor = .simulated env latency) {plan : Plan}
    (declared : plan.Declared env types) (input : Val) (clock : Nat) :
    (∃ v, (m.run plan input () [] clock none).1 = .ok v) ↔
      plan.Fits env types input.runtimeType := by
  have quiet : m.executor.Quiet := by
    rw [simulated]
    exact Executor.quiet_simulated env latency
  have ends : (Process.done (m.run plan input () [] clock none).1).Dry env types
      (plan.Fits env types input.runtimeType) (plan.echo env input.runtimeType) := by
    refine (run_spec_of_quiet quiet (I := fun q _ ↦ q.Dry env types _ _) ?_ ?_).1
    · intro q w starts
      exact starts.dry watched simulated declared rfl
    · intro q w t q' w' dry quietly going _ resumes
      exact (resumes.dry watched simulated quietly going dry.declared).trans dry
  cases result : (m.run plan input () [] clock none).1 with
  | ok v =>
    rw [result] at ends
    exact iff_of_true ⟨v, rfl⟩ (Process.Dry.ok_iff.1 ends).1
  | error e =>
    rw [result] at ends
    refine iff_of_false ?_ (Process.Dry.error_iff.1 ends)
    rintro ⟨v, ⟨⟩⟩

end Machine

/-! ## Checked programs -/

/-- Whether no task that is named in a node yields a type with a variable. -/
def Program.Plain (p : Program) (env : Environment) (n : Node) : Prop :=
  ∀ name ∈ n.references, p.isFunctor name = false →
    ∀ t, env.get? name = some t → t.arrow.2.vars = []

namespace Program

variable {p : Program}

section Recorded

variable (wf : p.WellFormed)
  (recorded : ∀ n ∈ p.nodes, ∀ t, types.get? n.id = some t ↔ p.HasType env n t)

include wf recorded

/-- The tasks of a program in which every node has a type are declared. -/
theorem Resolves.declared (typed : ∀ n ∈ p.nodes, p.Typed env n) {n : Node} {plan : Plan}
    (h : p.Resolves n plan) (mem : n ∈ p.nodes) : plan.Declared env types := by
  induction h with
  | task none =>
    obtain ⟨t, found⟩ := (typed_task_iff none).1 (typed _ mem)
    exact ⟨t, found, _, (recorded _ mem _).2 (.task none found), rfl⟩
  | named found _ ih => exact ih (wf.body_mem_nodes mem found)
  | composition _ _ ihOuter ihInner =>
    constructor
    · exact ihOuter (wf.operands_mem_nodes mem).1
    · exact ihInner (wf.operands_mem_nodes mem).2
  | product _ _ ihLeft ihRight =>
    constructor
    · exact ihLeft (wf.branches_mem_nodes mem).1
    · exact ihRight (wf.branches_mem_nodes mem).2
  | functor _ ih => exact ih (wf.declared_mem_nodes mem)

/-- Where no task yields a variable nothing is substituted: a plan says what the type of its node
yields, so it fits. -/
theorem HasType.echo_eq (functors : ∀ f ∈ p.functors, p.Plain env f.2) {n : Node} {t : Ty}
    (typed : p.HasType env n t) (mem : n ∈ p.nodes) (plain : p.Plain env n) {plan : Plan}
    (resolves : p.Resolves n plan) (said : Option Ty) :
    t.arrow.2.vars = [] ∧ plan.echo env said = t.arrow.2.echo said ∧
      plan.Fits env types said := by
  induction typed generalizing plan said with
  | @task _ name _ t none found =>
    cases resolves with
    | named some _ => cases none.symm.trans some
    | task =>
      have isTask : p.isFunctor name = false := by
        rw [wf.isFunctor_eq, none]
        rfl
      refine ⟨plain name (List.mem_singleton.2 rfl) isTask t found, ?_, trivial⟩
      rw [Plan.echo, found]
      rfl
  | @named id name span body t stands typed ih =>
    cases resolves with
    | task none => cases none.symm.trans stands
    | named stands' resolves =>
      obtain rfl := Option.some.inj (stands.symm.trans stands')
      obtain ⟨_, _, entry⟩ := wf.functorBody_eq_some_iff.1 stands
      have mem' := wf.body_mem_nodes mem stands
      obtain ⟨ground, echo, fits⟩ := ih mem' (functors _ entry) resolves said
      refine ⟨ground, echo, fits, ?_⟩
      rintro u a ⟨u', found, rfl⟩ answer
      obtain rfl := ((recorded _ mem u').1 found).unique (.named stands typed)
      exact Ty.compatible_echo (echo.symm.trans answer)
  | composition _ _ _ ihInner ihOuter =>
    cases resolves with
    | composition outer inner =>
      obtain ⟨-, echo, fits⟩ := ihInner (wf.operands_mem_nodes mem).2
        (fun name ref ↦ plain name (List.mem_append_right _ ref)) inner said
      obtain ⟨ground, echo', fits'⟩ := ihOuter (wf.operands_mem_nodes mem).1
        (fun name ref ↦ plain name (List.mem_append_left _ ref)) outer _
      simp only [Ty.arrow_fn] at ground echo' ⊢
      rw [Ty.apply_of_vars_eq_nil ground]
      exact ⟨ground, echo'.trans (Ty.echo_of_vars_eq_nil ground _ _), fits, fits'⟩
  | product _ _ _ ihLeft ihRight =>
    cases resolves with
    | product left right =>
      obtain ⟨ground, echo, fits⟩ := ihLeft (wf.branches_mem_nodes mem).1
        (fun name ref ↦ plain name (List.mem_append_left _ ref)) left said
      obtain ⟨ground', echo', fits'⟩ := ihRight (wf.branches_mem_nodes mem).2
        (fun name ref ↦ plain name (List.mem_append_right _ ref)) right said
      simp only [Ty.arrow_fn] at ground echo ground' echo' ⊢
      rw [Ty.apply_of_vars_eq_nil ground, Ty.apply_of_vars_eq_nil ground']
      refine ⟨Ty.vars_pair_eq_nil_iff.2 ⟨ground, ground'⟩, ?_, fits, fits'⟩
      rw [Plan.echo, echo, echo']
      rfl
  | functor _ ih =>
    cases resolves with
    | functor resolves => exact ih (wf.declared_mem_nodes mem) plain resolves said

/-- A plan fits whatever its input says if no task in a functor yields a variable. -/
theorem Resolves.fits (typed : ∀ n ∈ p.nodes, p.Typed env n)
    (functors : ∀ f ∈ p.functors, p.Plain env f.2) {n : Node} {plan : Plan}
    (h : p.Resolves n plan) (mem : n ∈ p.nodes) (said : Option Ty) :
    plan.Fits env types said := by
  induction h generalizing said with
  | task => trivial
  | @named id name span body plan stands resolves ih =>
    obtain ⟨t, typed⟩ := typed _ mem
    have plain : p.Plain env (.literal id name span) := by
      intro other ref isTask
      obtain rfl := List.mem_singleton.1 ref
      rw [wf.isFunctor_eq, stands] at isTask
      cases isTask
    exact (typed.echo_eq wf recorded functors mem plain (.named stands resolves) said).2.2
  | composition _ _ ihOuter ihInner =>
    constructor
    · exact ihInner (wf.operands_mem_nodes mem).2 said
    · exact ihOuter (wf.operands_mem_nodes mem).1 _
  | product _ _ ihLeft ihRight =>
    constructor
    · exact ihLeft (wf.branches_mem_nodes mem).1 said
    · exact ihRight (wf.branches_mem_nodes mem).2 said
  | functor _ ih => exact ih (wf.declared_mem_nodes mem) said

end Recorded

end Program

/-- The dry run of a workflow that passes its check, under a strict guard, without a limit on the
time of calls and without cancellation, yields a value just if no functor name promises what its
body will not say; tasks say what they promise.  This is so for every input if no task in a functor
yields a type with a variable. -/
theorem dry_run_ok_iff {source : String} {p : Program} (parsed : Program.parse source = .ok p)
    {base : Environment} (success : (p.check base).success = true) (latency : Nat) (input : Val)
    (policy : Policy) :
    let env := p.environment base
    let t := Workflow.run source base (.simulated env latency) () input ⟨true, true, policy, none⟩
      none
    ((∃ y, t.result = .ok y) ↔ p.plan.Fits env (p.check base).nodeTypes input.runtimeType) ∧
      ((∀ f ∈ p.functors, p.Plain env f.2) → ∃ y, t.result = .ok y) := by
  intro env t
  have wf := Program.wellFormed_of_parse parsed
  have report := wf.exact_checkWith LintRule.all base
  have typed := report.success_iff.1 success
  have resolves := wf.resolves_root
  have declared := resolves.declared wf report.types typed p.root_mem_nodes
  let m : Machine Unit (List Violation) :=
    ⟨.simulated env latency, (Guard.mk (p.check base).nodeTypes true).observer, policy⟩
  have run : (∃ y, t.result = .ok y) ↔ ∃ v, (m.run p.plan input () [] 0 none).1 = .ok v := by
    have trace : t = .ofRun (p.check base) id (m.run p.plan input () [] 0 none) := by
      simp only [t, Workflow.run, Workflow.check, parsed, success, if_true]
      rfl
    rw [trace, Trace.ofRun]
    cases (m.run p.plan input () [] 0 none).1 <;> simp
  have yields := run.trans (Machine.run_dry (m := m) rfl rfl declared input 0)
  refine ⟨yields, fun plain ↦ yields.2 ?_⟩
  exact resolves.fits wf report.types typed plain p.root_mem_nodes input.runtimeType

/-- A task in a functor that copies its input, and says of it what the type checker has inferred. -/
theorem dry_run_ok_iff_of_copy :
    let source := "g :: () -> Q\nt :: a -> a × a\nf = t ∘ g\nf × g"
    let input := Val.data (some "Z") .null
    ∃ p, Program.parse source = .ok p ∧ (p.check .empty).success = true ∧
      (p.check .empty).programType =
        some (.fn .unit (.prod (.prod (.mono "Q") (.mono "Q")) (.mono "Q"))) ∧
      p.plan.Fits (p.environment .empty) (p.check .empty).nodeTypes input.runtimeType := by
  intro source input
  obtain ⟨p, parsed, success, type, ok⟩ : ∃ p, Program.parse source = .ok p ∧
      (p.check .empty).success = true ∧
      (p.check .empty).programType =
        some (.fn .unit (.prod (.prod (.mono "Q") (.mono "Q")) (.mono "Q"))) ∧
      (Workflow.run source .empty (.simulated (p.environment .empty) 5) () input
        ⟨true, true, .waitAll, none⟩ none).result.toOption.isSome = true :=
    ⟨_, Except.eq_ok_get (by decide +kernel), by decide +kernel, by decide +kernel,
      by decide +kernel⟩
  obtain ⟨yields, -⟩ := dry_run_ok_iff parsed success 5 input .waitAll
  exact ⟨p, parsed, success, type, yields.1 ⟨_, Except.eq_ok_get ok⟩⟩

/-- A dry run can fail though the program passes its check: a variable is answered with all of the
input, not with the part that it was matched with, and with an input that the program does not
accept it is answered all the same. -/
theorem dry_run_contradicts :
    let refused (source : String) (input : Val) (policy : Policy) :=
      (Program.parse source).toOption.map fun p ↦
        let t := Workflow.run source .empty (.simulated (p.environment .empty) 0) () input
          ⟨true, true, policy, none⟩ none
        let violation := match t.result with
          | .error (.violation v) => some (v.site.name, v.expected, v.actual)
          | _ => none
        ((p.check .empty).success, violation)
    ∀ policy,
      refused "g :: () -> Q × Q\nt :: (a × a) -> a\nf = t ∘ g\nf" .unit policy =
          some (true, some ("f", .mono "Q", .prod (.mono "Q") (.mono "Q"))) ∧
        refused "t :: a -> a\nh :: X -> X\nf = t × h\nf" (.data (some "Z") .null) policy =
          some (true, some ("f", .prod (.mono "X") (.mono "X"),
            .prod (.mono "Z") (.mono "X"))) := by
  intro refused policy
  cases policy <;> decide +kernel

end Taskflow
