import Taskflow.Proofs.Run.Confinement

/-!
# Executors that answer alike

A run asks its executor about the tasks of its plan and about nothing else.  So executors that
answer alike whenever they are asked for one of these tasks have the same run of the plan
(`Machine.run_withExecutor`), whatever they would say to other names.
-/

namespace Taskflow

variable {σ ω : Type}

/-- Whether two executors answer alike for all tasks that satisfy `P`. -/
def Executor.Alike (P : String → Prop) (e e' : Executor σ) : Prop :=
  ∀ task, P task → ∀ input s, e'.respond task input s = e.respond task input s

namespace Machine

/-- A machine with another executor. -/
def withExecutor (m : Machine σ ω) (e : Executor σ) : Machine σ ω := { m with executor := e }

variable {P : String → Prop} {m : Machine σ ω} {e : Executor σ}

section

variable {w w' : World σ ω}

theorem Leaves.withExecutor {site : Site} {p q : Process} (h : m.Leaves site p w q w')
    (e : Executor σ) : (m.withExecutor e).Leaves site p w q w' := by
  cases h with
  | ok => exact .ok
  | error => exact .error
  | wait pending => exact .wait pending

theorem Joins.withExecutor {left right q : Process} (h : m.Joins w left right q w')
    (e : Executor σ) : (m.withExecutor e).Joins w left right q w' := by
  cases h with
  | ok => exact .ok
  | left => exact .left
  | right => exact .right
  | dropLeft pending policy => exact .dropLeft pending policy
  | dropRight pending policy => exact .dropRight pending policy
  | wait pending notLeft notRight => exact .wait pending notLeft notRight

variable (alike : m.executor.Alike P e)
include alike

theorem begin_withExecutor {site : Site} (mem : P site.name) (v : Val) (w : World σ ω) :
    (m.withExecutor e).begin site v w = m.begin site v w := by
  unfold begin
  rw [withExecutor, alike _ mem]
  rfl

/-- A plan begins in the same way with the other executor. -/
theorem Starts.withExecutor {plan : Plan} {v : Val} {q : Process} (h : m.Starts plan v w q w')
    (confined : plan.Confined P) : (m.withExecutor e).Starts plan v w q w' := by
  induction h with
  | @task site v w =>
    have starts := @Starts.task σ ω (m.withExecutor e) site v w
    rw [begin_withExecutor alike confined] at starts
    exact starts
  | named _ leaves ih => exact .named (ih confined) (leaves.withExecutor e)
  | seqOk _ _ ihInner ihOuter => exact .seqOk (ihInner confined.2) (ihOuter confined.1)
  | seqError _ ih => exact .seqError (ih confined.2)
  | seqWait _ pending ih => exact .seqWait (ih confined.2) pending
  | parEnds _ ends ih => exact .parEnds (ih confined.1) ends
  | par _ notLeft _ joins ihLeft ihRight =>
    exact .par (ihLeft confined.1) notLeft (ihRight confined.2) (joins.withExecutor e)

/-- A process goes on in the same way with the other executor. -/
theorem Resumes.withExecutor {settle : Call → World σ ω → Process × World σ ω} {p q : Process}
    (h : m.Resumes settle p w q w') (confined : p.Confined P fun _ ↦ True) :
    (m.withExecutor e).Resumes settle p w q w' := by
  induction h with
  | done => exact .done
  | call => exact .call
  | named _ leaves ih => exact .named (ih confined) (leaves.withExecutor e)
  | seqOk _ starts ih => exact .seqOk (ih confined.2) (starts.withExecutor alike confined.1)
  | seqError _ ih => exact .seqError (ih confined.2)
  | seqWait _ pending ih => exact .seqWait (ih confined.2) pending
  | parEnds _ ends ih => exact .parEnds (ih confined.1) ends
  | par _ notLeft _ joins ihLeft ihRight =>
    exact .par (ihLeft confined.1) notLeft (ihRight confined.2) (joins.withExecutor e)

theorem resume_withExecutor (settle : Call → World σ ω → Process × World σ ω) {p : Process}
    (confined : p.Confined P fun _ ↦ True) (w : World σ ω) :
    (m.withExecutor e).resume settle p w = m.resume settle p w :=
  ((m.resumes settle p w).withExecutor alike confined).eq

end

/-! ## Whole runs -/

/-- Whether a process and the calls in the log are for tasks that satisfy `P`. -/
def Keeps (P : String → Prop) (p : Process) (w : World σ ω) : Prop :=
  p.Confined P (fun _ ↦ True) ∧ w.Confined P

theorem Keeps.settle {p : Process} {w : World σ ω} (keeps : Keeps P p w) :
    Keeps P (m.resume m.settle p w).1 (m.resume m.settle p w).2 :=
  let inv := (m.confines_tasks P).invariant
  inv.resumes inv.settle (m.resumes m.settle p w) keeps.1 keeps.2

theorem Keeps.sweep {p : Process} {w : World σ ω} (keeps : Keeps P p w) :
    Keeps P (m.sweep p w).1 (m.sweep p w).2 :=
  let inv := (m.confines_tasks P).invariant
  inv.resumes inv.settleStopped (m.resumes settleStopped p w) keeps.1 keeps.2

variable (alike : m.executor.Alike P e)
include alike

theorem sweep_withExecutor {p : Process} {w : World σ ω} (keeps : Keeps P p w) :
    (m.withExecutor e).sweep p w = m.sweep p w :=
  resume_withExecutor alike settleStopped keeps.1 w

theorem tick_withExecutor {p : Process} {w : World σ ω} (keeps : Keeps P p w) :
    (m.withExecutor e).tick p w = m.tick p w := by
  have settled : (m.withExecutor e).resume (m.withExecutor e).settle p w =
      m.resume m.settle p w := resume_withExecutor alike m.settle keeps.1 w
  rw [tick, tick, settled]
  exact sweep_withExecutor alike keeps.settle

theorem proceed_withExecutor (cancelAt : Option Nat) {p : Process} {w : World σ ω}
    (keeps : Keeps P p w) :
    (m.withExecutor e).proceed cancelAt p w = m.proceed cancelAt p w := by
  fun_induction proceed m cancelAt p w with
  | case1 cancelAt p w quiet => exact (m.withExecutor e).proceed_of_quiet cancelAt w quiet
  | case2 p w t wake _ r ih =>
    have before : ∀ c, none = some c → t < c := by
      rintro c ⟨⟩
    have keeps : Keeps P p { w with clock := t } := keeps
    rw [(m.withExecutor e).proceed_of_wake w wake before, tick_withExecutor alike keeps]
    exact ih keeps.settle.sweep
  | case3 p w t wake _ c due _ r ih =>
    have keeps : Keeps P p { w with clock := c, cancelled := true } := keeps
    rw [(m.withExecutor e).proceed_of_cancel w wake due, sweep_withExecutor alike keeps]
    exact ih keeps.sweep
  | case4 p w t wake _ c late r ih =>
    have before : ∀ c', some c = some c' → t < c' := by
      rintro c' ⟨⟩
      exact Nat.not_le.1 late
    have keeps : Keeps P p { w with clock := t } := keeps
    rw [(m.withExecutor e).proceed_of_wake w wake before, tick_withExecutor alike keeps]
    exact ih keeps.settle.sweep

/-- Executors that answer alike for the tasks of a plan have the same run of it. -/
theorem run_withExecutor {plan : Plan} (confined : plan.Confined P) (input : Val) (s : σ) (o : ω)
    (clock : Nat) (cancelAfter : Option Nat) :
    (m.withExecutor e).run plan input s o clock cancelAfter =
      m.run plan input s o clock cancelAfter := by
  have starts := m.starts plan input (initial s o clock cancelAfter)
  have start := (starts.withExecutor alike confined).eq
  have keeps : Keeps P _ _ := (m.confines_tasks P).invariant.starts starts confined
    (confined_initial s o clock cancelAfter)
  rw [initial] at start keeps
  unfold run
  rw [start]
  dsimp only
  rw [sweep_withExecutor alike keeps]
  exact proceed_withExecutor alike _ keeps.sweep

end Machine

end Taskflow
