import Taskflow.Proofs.Run.Steps
import Taskflow.Proofs.Run.World

/-!
# Places in a run

A literal stands somewhere and has an id.  A run hands both on to its observer and looks at neither,
so unless an observer is told of them a plan without ids and places (`Plan.bare`) has the same run:
at every instant the process is that of the plan, without ids and places, and the world is the same
(`Machine.run_bare`).
-/

namespace Taskflow

/-! ## Without ids and places -/

def Site.bare (s : Site) : Site := ⟨0, s.name, .nowhere⟩

/-- A plan without ids and places. -/
def Plan.bare : Plan → Plan
  | .task site => .task site.bare
  | .named site body => .named site.bare body.bare
  | .seq outer inner => .seq outer.bare inner.bare
  | .par left right => .par left.bare right.bare

def Call.bare (c : Call) : Call := { c with site := c.site.bare }

namespace Process

/-- A process without ids and places. -/
def bare : Process → Process
  | .done r => .done r
  | .call c => .call c.bare
  | .named site body => .named site.bare body.bare
  | .seq outer inner => .seq outer.bare inner.bare
  | .par flag left right => .par flag left.bare right.bare

@[simp] theorem isDone_bare (p : Process) : p.bare.isDone = p.isDone := by
  cases p <;> rfl

@[simp] theorem nextWake_bare (p : Process) : p.bare.nextWake = p.nextWake := by
  induction p <;> simp_all [bare, nextWake, Call.bare]

@[simp] theorem drop_bare {σ ω : Type} (p : Process) (w : World σ ω) :
    p.bare.drop w = p.drop w := by
  induction p generalizing w <;> simp_all [bare, drop, Call.bare]

end Process

/-! ## Runs -/

namespace Machine

variable {σ : Type} {m : Machine σ Unit} {w w' : World σ Unit}

@[simp] theorem ends_bare (p : Process) : m.ends p.bare = m.ends p := by
  cases p <;> rfl

theorem Joins.bare {left right q : Process} (h : m.Joins w left right q w') :
    m.Joins w left.bare right.bare q.bare w' := by
  cases h with
  | ok => exact .ok
  | left => exact .left
  | right => exact .right
  | dropLeft pending policy =>
    rw [← Process.drop_bare]
    exact .dropLeft ((Process.isDone_bare _).trans pending) policy
  | dropRight pending policy =>
    rw [← Process.drop_bare]
    exact .dropRight ((Process.isDone_bare _).trans pending) policy
  | wait pending notLeft notRight =>
    refine .wait ?_ ((ends_bare _).trans notLeft) ((ends_bare _).trans notRight)
    rwa [Process.isDone_bare, Process.isDone_bare]

theorem settleStopped_bare (c : Call) (w : World σ Unit) :
    settleStopped c.bare w = ((settleStopped c w).1.bare, (settleStopped c w).2) := by
  unfold settleStopped
  split <;> rfl

section

variable (blind : m.observer = .blind)
include blind

theorem finish_bare (c : Call) (w : World σ Unit) :
    m.finish c.bare w = ((m.finish c w).1.bare, (m.finish c w).2) := by
  unfold finish
  dsimp only [Call.bare]
  cases c.reply.result with
  | ok v =>
    dsimp only
    rw [observe_of_blind blind, observe_of_blind blind]
    rfl
  | error f => rfl

theorem begin_bare (site : Site) (v : Val) (w : World σ Unit) :
    m.begin site.bare v w = ((m.begin site v w).1.bare, (m.begin site v w).2) := by
  unfold begin
  split
  · rfl
  · dsimp only [Site.bare]
    split
    · exact finish_bare blind ⟨_, site, _, _, _⟩ _
    · rfl

theorem Leaves.bare {site : Site} {p q : Process} (h : m.Leaves site p w q w') :
    m.Leaves site.bare p.bare w q.bare w' := by
  cases h with
  | ok =>
    have leaves := @Leaves.ok σ Unit m site.bare
    rw [observe_of_blind blind]
    simp only [observe_of_blind blind] at leaves
    exact leaves
  | error => exact .error
  | wait pending => exact .wait ((Process.isDone_bare _).trans pending)

/-- A plan without ids and places gets as far as the plan, through the same worlds. -/
theorem Starts.bare {plan : Plan} {v : Val} {p : Process} (h : m.Starts plan v w p w') :
    m.Starts plan.bare v w p.bare w' := by
  induction h with
  | @task site v w =>
    have starts := @Starts.task σ Unit m site.bare v w
    rw [begin_bare blind] at starts
    exact starts
  | named _ leaves ih => exact .named ih (leaves.bare blind)
  | seqOk _ _ ihInner ihOuter => exact .seqOk ihInner ihOuter
  | seqError _ ih => exact .seqError ih
  | seqWait _ pending ih => exact .seqWait ih ((Process.isDone_bare _).trans pending)
  | parEnds _ ends ih => exact .parEnds ih ((ends_bare _).trans ends)
  | par _ notLeft _ joins ihLeft ihRight =>
    exact .par ihLeft ((ends_bare _).trans notLeft) ihRight joins.bare

/-- So does a process without ids and places. -/
theorem Resumes.bare {settle : Call → World σ Unit → Process × World σ Unit}
    (settles : ∀ c w, settle c.bare w = ((settle c w).1.bare, (settle c w).2)) {p p' : Process}
    (h : m.Resumes settle p w p' w') : m.Resumes settle p.bare w p'.bare w' := by
  induction h with
  | done => exact .done
  | @call c w =>
    have resumes := @Resumes.call σ Unit m settle c.bare w
    rw [settles] at resumes
    exact resumes
  | named _ leaves ih => exact .named ih (leaves.bare blind)
  | seqOk _ starts ih => exact .seqOk ih (starts.bare blind)
  | seqError _ ih => exact .seqError ih
  | seqWait _ pending ih => exact .seqWait ih ((Process.isDone_bare _).trans pending)
  | parEnds _ ends ih =>
    rw [← Process.drop_bare]
    exact .parEnds ih ((ends_bare _).trans ends)
  | par _ notLeft _ joins ihLeft ihRight =>
    exact .par ihLeft ((ends_bare _).trans notLeft) ihRight joins.bare

theorem settle_bare (c : Call) (w : World σ Unit) :
    m.settle c.bare w = ((m.settle c w).1.bare, (m.settle c w).2) := by
  unfold settle
  split
  · exact settleStopped_bare c w
  · by_cases due : c.wake ≤ w.clock
    · have due' : c.bare.wake ≤ w.clock := due
      rw [settleDue, settleDue, if_pos due, if_pos due', finish_bare blind]
    · have due' : ¬c.bare.wake ≤ w.clock := due
      rw [settleDue, settleDue, if_neg due, if_neg due']
      rfl

/-- A run without ids and places is the same run. -/
theorem run_bare (plan : Plan) (input : Val) (s : σ) (clock : Nat) (cancelAfter : Option Nat) :
    m.run plan.bare input s () clock cancelAfter = m.run plan input s () clock cancelAfter :=
  m.run_map (fun _ ↦ rfl) Process.nextWake_bare (fun sweeps ↦ sweeps.bare blind settleStopped_bare)
    (fun settles ↦ settles.bare blind (settle_bare blind)) (fun starts ↦ starts.bare blind)
    input s () clock cancelAfter

end

end Machine

end Taskflow
