import Taskflow.Run.Machine

/-!
# The parts of the world

Which part of the world each of its small steps touches: cancelling touches the scopes, the end of a
call its entry in the log, and going in and out of products the scopes.
-/

namespace Taskflow

variable {σ ω : Type}

namespace World

@[simp] theorem observer_enter (w : World σ ω) (b : Bool) : (w.enter b).observer = w.observer := rfl

@[simp] theorem observer_leave (w : World σ ω) : w.leave.observer = w.observer := rfl

@[simp] theorem stopped_enter (w : World σ ω) : (w.enter false).stopped = w.stopped := by
  simp [stopped, enter]

@[simp] theorem executor_close (w : World σ ω) (n : Nat) (o : Outcome) :
    (w.close n o).executor = w.executor := rfl

@[simp] theorem observer_close (w : World σ ω) (n : Nat) (o : Outcome) :
    (w.close n o).observer = w.observer := rfl

@[simp] theorem scopes_close (w : World σ ω) (n : Nat) (o : Outcome) :
    (w.close n o).scopes = w.scopes := rfl

@[simp] theorem cancelled_close (w : World σ ω) (n : Nat) (o : Outcome) :
    (w.close n o).cancelled = w.cancelled := rfl

@[simp] theorem executor_cancelBy (w : World σ ω) (r : Reply) :
    (w.cancelBy r).executor = w.executor := by
  unfold cancelBy cancelScope cancelRun
  split <;> split <;> (try split) <;> rfl

@[simp] theorem observer_cancelBy (w : World σ ω) (r : Reply) :
    (w.cancelBy r).observer = w.observer := by
  unfold cancelBy cancelScope cancelRun
  split <;> split <;> (try split) <;> rfl

@[simp] theorem calls_cancelBy (w : World σ ω) (r : Reply) : (w.cancelBy r).calls = w.calls := by
  unfold cancelBy cancelScope cancelRun
  split <;> split <;> (try split) <;> rfl

/-- A call that cancels nothing leaves the scopes alone. -/
theorem cancelBy_eq {w : World σ ω} {r : Reply} (scope : r.cancelsScope = false)
    (run : r.cancelsRun = false) : w.cancelBy r = w := by
  simp [cancelBy, scope, run]

end World

namespace Process

@[simp] theorem observer_drop (p : Process) (w : World σ ω) : (p.drop w).observer = w.observer := by
  induction p generalizing w <;> simp_all [drop]

@[simp] theorem scopes_drop (p : Process) (w : World σ ω) : (p.drop w).scopes = w.scopes := by
  induction p generalizing w <;> simp_all [drop]

@[simp] theorem cancelled_drop (p : Process) (w : World σ ω) :
    (p.drop w).cancelled = w.cancelled := by
  induction p generalizing w <;> simp_all [drop]

end Process

namespace Machine

variable {m : Machine σ ω}

/-- A value that the observer accepts without taking note of it passes. -/
theorem observe_eq {site : Site} {v : Val} (accepts : ∀ o, m.observer.observe site v o = (none, o))
    (w : World σ ω) : m.observe site v w = (.done (.ok v), w) := by
  rw [observe, accepts]

/-- Without an observer every value of a literal passes. -/
theorem observe_of_blind {m : Machine σ Unit} (blind : m.observer = .blind) (site : Site) (v : Val)
    (w : World σ Unit) : m.observe site v w = (.done (.ok v), w) := by
  refine observe_eq (fun o ↦ ?_) w
  rw [blind]
  rfl

end Machine

end Taskflow
