import Taskflow.Proofs.Run.Confinement
import Taskflow.Proofs.Run.Resolution
import Taskflow.Proofs.Typing.Exactness
import Taskflow.Run.Simulated
import Taskflow.Workflow

/-!
# What a workflow calls

A name is looked up by the parser, by the type checker, when names are resolved, and by the executor
itself.  All of them agree: what a workflow asks of its executor is asked of a name that no functor
has and that has a type in the environment of the program (`dispatched_of_run`).  An executor that
knows all tasks of that environment is therefore never asked for one that it does not know.
-/

namespace Taskflow

/-- A name of a task: it stands for no functor, and its type is known. -/
def Program.IsTask (p : Program) (env : Environment) (name : String) : Prop :=
  p.isFunctor name = false ∧ ∃ t, env.get? name = some t

section Plans

variable {p : Program} {env : Environment}

/-- A plan consists of the tasks that literals of the program name. -/
theorem Program.Resolves.confined {P : String → Prop} (wf : p.WellFormed) {n : Node} {plan : Plan}
    (h : p.Resolves n plan) (hn : n ∈ p.nodes)
    (tasks : ∀ name, p.Mentions name → p.functorBody name = none → P name) : plan.Confined P := by
  induction h with
  | @task id name span none => exact tasks name ⟨id, span, hn⟩ none
  | named stands _ ih => exact ih (wf.body_mem_nodes hn stands)
  | composition _ _ ihOuter ihInner =>
    exact ⟨ihOuter (wf.operands_mem_nodes hn).1, ihInner (wf.operands_mem_nodes hn).2⟩
  | product _ _ ihLeft ihRight =>
    exact ⟨ihLeft (wf.branches_mem_nodes hn).1, ihRight (wf.branches_mem_nodes hn).2⟩
  | functor _ ih => exact ih (wf.declared_mem_nodes hn)

/-- The plan of a program that passes its check consists of tasks. -/
theorem Program.WellFormed.confined_plan (wf : p.WellFormed) {base : Environment}
    (success : (p.check base).success = true) :
    p.plan.Confined (p.IsTask (p.environment base)) := by
  have typed := (wf.exact_checkWith LintRule.all base).success_iff.1 success
  refine wf.resolves_root.confined wf p.root_mem_nodes fun name mentioned none ↦ ?_
  obtain ⟨id, span, mem⟩ := mentioned
  constructor
  · rw [wf.isFunctor_eq, none]
    rfl
  · exact (Program.typed_task_iff none).1 (typed _ mem)

end Plans

/-! ## The run of a workflow -/

section Traces

variable {σ ω : Type}

/-- The executor with the limit on the time of a call, if the options have one. -/
def RunOptions.limited (options : RunOptions) (e : Executor σ) : Executor σ :=
  match options.timeout with
  | some limit => e.within limit
  | none => e

/-- A limit keeps no call from the executor. -/
theorem Executor.after_within (e : Executor σ) (limit : Nat) (s : σ)
    (asked : List (String × Val)) : (e.within limit).after s asked = e.after s asked := by
  have same : ∀ task input s,
      ((e.within limit).respond task input s).2 = (e.respond task input s).2 := by
    intro task input s
    unfold within
    dsimp only
    split <;> rfl
  induction asked generalizing s with
  | nil => rfl
  | cons k rest ih =>
    rw [after, after, same]
    exact ih _

theorem RunOptions.after_limited (options : RunOptions) (e : Executor σ) (s : σ)
    (asked : List (String × Val)) : (options.limited e).after s asked = e.after s asked := by
  unfold limited
  split
  · exact e.after_within _ s asked
  · rfl

/-- A limit adds one failure, and it comes from no task. -/
theorem RunOptions.result_limited (options : RunOptions) (e : Executor σ) {task : String}
    {input : Val} {s : σ} {f : TaskFailure}
    (fails : ((options.limited e).respond task input s).1.result = .error f) :
    (∃ limit, f = .timedOut limit) ∨ (e.respond task input s).1.result = .error f := by
  unfold limited Executor.within at fails
  dsimp only at fails
  split at fails
  · dsimp only at fails
    split at fails
    · exact .inr fails
    · cases fails
      exact .inl ⟨_, rfl⟩
  · exact .inr fails

/-- The simulated executor has an answer for every task that it knows. -/
theorem Executor.simulated_result {env : Environment} {latency : Nat} {task : String}
    (known : ∃ t, env.get? task = some t) (input : Val) (s : Unit) :
    ∃ v, ((simulated env latency).respond task input s).1.result = .ok v := by
  obtain ⟨t, found⟩ := known
  dsimp only [simulated]
  rw [found]
  exact ⟨_, rfl⟩

/-- What is left of a workflow after the run of a machine. -/
def Trace.ofRun (report : Report) (violations : ω → List Violation)
    (ended : Except RunError Val × World σ ω) : Trace σ where
  result := match ended.1 with
    | .ok v => .ok ⟨v, report, violations ended.2.observer⟩
    | .error e => .error (.ofRun e)
  executor := ended.2.executor
  clock := ended.2.clock
  calls := ended.2.calls
  cancelled := ended.2.cancelled

/-- A program that has been checked is run on a machine whose observer refuses values only for their
types. -/
theorem Workflow.runChecked_eq (p : Program) (report : Report) (e : Executor σ) (s : σ)
    (input : Val) (options : RunOptions) (cancelAfter : Option Nat) :
    ∃ (ω : Type) (watch : Observer ω) (o : ω) (violations : ω → List Violation),
      (∀ site v o' e, (watch.observe site v o').1 = some e →
        ∃ violation, e = .violation violation) ∧
        runChecked p report e s input options cancelAfter = .ofRun report violations
          ((Machine.mk (options.limited e) watch options.policy).run p.plan input s o 0
            cancelAfter) := by
  unfold runChecked
  dsimp only
  split
  next typed =>
    refine ⟨_, (Guard.mk report.nodeTypes options.strict).observer, [], id, ?_, rfl⟩
    intro site v found e refused
    dsimp only [Guard.observer] at refused
    split at refused
    · cases refused
    next violation _ =>
      split at refused
      · exact ⟨violation, (Option.some.inj refused).symm⟩
      · cases refused
  next untyped =>
    refine ⟨_, .blind, (), fun _ ↦ [], ?_, rfl⟩
    rintro site v o e ⟨⟩

/-- What is asked of the executor while a checked program runs is asked for one of its tasks. -/
theorem Workflow.dispatched_runChecked {p : Program} (wf : p.WellFormed) {base : Environment}
    (success : (p.check base).success = true) (e : Executor σ) (s : σ) (input : Val)
    (options : RunOptions) (cancelAfter : Option Nat) :
    let t := runChecked p (p.check base) e s input options cancelAfter
    t.executor = e.after s (t.calls.map fun r ↦ (r.task, r.input)) ∧
      ∀ r ∈ t.calls, p.IsTask (p.environment base) r.task := by
  intro t
  obtain ⟨ω, watch, o, violations, -, ran⟩ :=
    runChecked_eq p (p.check base) e s input options cancelAfter
  let m : Machine σ ω := ⟨options.limited e, watch, options.policy⟩
  have ledger := Ledger.of_run m p.plan input s o 0 cancelAfter
  have confined := (Machine.run_confined (m.confines_tasks _) (wf.confined_plan success) input s o 0
    cancelAfter).2
  rw [show t = _ from ran]
  constructor
  · exact ledger.executor.trans (options.after_limited e s _)
  · intro r hr
    exact confined _ (List.mem_map_of_mem hr)

/-- A run with simulated tasks never fails with a message of a task. -/
theorem Workflow.result_simulated {p : Program} (wf : p.WellFormed) {base : Environment}
    (success : (p.check base).success = true) (latency : Nat) (input : Val) (options : RunOptions)
    (cancelAfter : Option Nat) {name : String} {v : Val} {message : String} :
    (runChecked p (p.check base) (.simulated (p.environment base) latency) () input options
      cancelAfter).result ≠ .error (.execution (.task name v (.failed message))) := by
  obtain ⟨ω, watch, o, violations, refuses, ran⟩ := runChecked_eq p (p.check base)
    (.simulated (p.environment base) latency) () input options cancelAfter
  let m : Machine Unit ω :=
    ⟨options.limited (.simulated (p.environment base) latency), watch, options.policy⟩
  have confines : m.Confines (p.IsTask (p.environment base))
      fun e ↦ ∀ name v message, e ≠ .task name v (.failed message) := by
    constructor
    · rintro name v message ⟨⟩
    · rintro task input s f known fails name v message ⟨⟩
      rcases options.result_limited _ fails with ⟨limit, ⟨⟩⟩ | fails
      obtain ⟨v, yields⟩ := Executor.simulated_result known.2 input s
      cases yields.symm.trans fails
    · rintro site v o e refused name v' message rfl
      obtain ⟨violation, ⟨⟩⟩ := refuses _ _ _ _ refused
  have safe := (Machine.run_confined confines (wf.confined_plan success) input () o 0
    cancelAfter).1
  rw [ran, Trace.ofRun]
  intro failed
  dsimp only at failed
  split at failed
  · cases failed
  next e ended =>
    cases e with
    | task =>
      cases failed
      exact safe _ ended _ _ _ rfl
    | cancelled => cases failed
    | violation => cases failed

/-- A workflow either runs the program of its text, which has passed its check, or does nothing. -/
theorem Workflow.run_cases (source : String) (base : Environment) (e : Executor σ) (s : σ)
    (input : Val) (options : RunOptions) (cancelAfter : Option Nat) :
    (∃ p, Program.parse source = .ok p ∧ (p.check base).success = true ∧
      run source base e s input options cancelAfter =
        runChecked p (p.check base) e s input options cancelAfter) ∨
    ((∀ failure, (run source base e s input options cancelAfter).result ≠
        .error (.execution failure)) ∧
      (run source base e s input options cancelAfter).calls = [] ∧
      (run source base e s input options cancelAfter).executor = s) := by
  unfold run check
  dsimp only
  cases parsed : Program.parse source with
  | error problem =>
    refine .inr ⟨?_, rfl, rfl⟩
    rintro failure ⟨⟩
  | ok p =>
    dsimp only
    split
    next success => exact .inl ⟨p, rfl, success, rfl⟩
    next =>
      refine .inr ⟨?_, rfl, rfl⟩
      rintro failure ⟨⟩

end Traces

/-- What a workflow asks of its executor is in its log, and it asks only for tasks that its program
has been checked with.  So a simulated executor for the environment of the program never answers
that it does not know a task, nor with any other message of its own. -/
theorem dispatched_of_run {σ : Type} (source : String) (base : Environment) (e : Executor σ) (s : σ)
    (input : Val) (options : RunOptions) (cancelAfter : Option Nat) :
    (let t := Workflow.run source base e s input options cancelAfter
     t.executor = e.after s (t.calls.map fun r ↦ (r.task, r.input)) ∧
      (t.calls ≠ [] → ∃ p, Program.parse source = .ok p ∧ (p.check base).success = true ∧
        ∀ r ∈ t.calls, p.isFunctor r.task = false ∧
          ∃ ty, (p.environment base).get? r.task = some ty)) ∧
    ∀ p, Program.parse source = .ok p → ∀ latency,
      let simulated := Executor.simulated (p.environment base) latency
      let t := Workflow.run source base simulated () input options cancelAfter
      (∀ r ∈ t.calls, ∃ v, (simulated.respond r.task r.input ()).1.result = .ok v) ∧
        ∀ name v message, t.result ≠ .error (.execution (.task name v (.failed message))) := by
  constructor
  · obtain ⟨p, parsed, success, ran⟩ | ⟨-, calls, executor⟩ :=
      Workflow.run_cases source base e s input options cancelAfter
    · obtain ⟨logged, tasks⟩ := Workflow.dispatched_runChecked (Program.wellFormed_of_parse parsed)
        success e s input options cancelAfter
      rw [ran]
      exact ⟨logged, fun _ ↦ ⟨p, parsed, success, tasks⟩⟩
    · dsimp only
      rw [calls, executor]
      exact ⟨rfl, fun some ↦ (some rfl).elim⟩
  · intro p parsed latency simulated t
    obtain ⟨p', parsed', success, ran⟩ | ⟨result, calls, -⟩ :=
      Workflow.run_cases source base simulated () input options cancelAfter
    · obtain rfl : p = p' := Except.ok.inj (parsed.symm.trans parsed')
      have wf := Program.wellFormed_of_parse parsed
      have tasks := (Workflow.dispatched_runChecked wf success simulated () input options
        cancelAfter).2
      rw [← ran] at tasks
      constructor
      · intro r hr
        exact Executor.simulated_result (tasks r hr).2 r.input ()
      · intro name v message
        rw [show t = _ from ran]
        exact Workflow.result_simulated wf success latency input options cancelAfter
    · constructor
      · intro r hr
        simp [show t.calls = [] from calls] at hr
      · intro name v message
        exact result _

/-- A functor name beside the task that it stands for, with a limit that the tasks keep. -/
theorem dispatched_of_functor_and_task :
    let source := "a :: () -> X\nf = a\nf × a"
    let options : RunOptions := ⟨true, true, .failFast, some 10⟩
    ∃ p, Program.parse source = .ok p ∧
      (let simulated := Executor.simulated (p.environment .empty) 5
       let t := Workflow.run source .empty simulated () .unit options none
       t.calls.map CallRecord.task = ["a", "a"] ∧
        (∀ r ∈ t.calls, p.isFunctor r.task = false ∧
          ∃ ty, (p.environment .empty).get? r.task = some ty) ∧
        ∀ name v message, t.result ≠ .error (.execution (.task name v (.failed message)))) := by
  intro source options
  obtain ⟨p, parsed, calls⟩ : ∃ p, Program.parse source = .ok p ∧
      (Workflow.run source .empty (.simulated (p.environment .empty) 5) () .unit options
        none).calls.map CallRecord.task = ["a", "a"] :=
    ⟨_, Except.eq_ok_get (by decide), by decide +kernel⟩
  refine ⟨p, parsed, ?_⟩
  intro simulated t
  obtain ⟨⟨-, some⟩, unreachable⟩ :=
    dispatched_of_run source .empty simulated () .unit options none
  obtain ⟨p', parsed', -, tasks⟩ := some (by
    rintro none
    rw [none] at calls
    cases calls)
  obtain rfl : p = p' := Except.ok.inj (parsed.symm.trans parsed')
  exact ⟨calls, tasks, (unreachable p parsed 5).2⟩

end Taskflow
