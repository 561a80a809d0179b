import Taskflow.Proofs.Run.Cancellation
import Taskflow.Proofs.Run.Sequential
import Taskflow.Proofs.Run.Watching

/-!
# Why a cancelled run fails

When the caller cancels a run that still waits, all calls that go on are given up, and each open
product is left with what its branches have come to by then.  `Process.forsaken` says what that is:
a branch that waits is cancelled, a branch that has failed keeps its error, and of two errors the
left one counts.  The run ends with it at once (`ended_of_cancelled`).

So the run is reported as cancelled if nothing in it has failed, and always where products fail
fast, for these keep no error while they wait.  A product that waits for both branches does: if its
left branch has failed, this is what a cancelled run reports (`cancelled_run_blames_branch`).
-/

namespace Taskflow

variable {σ ω : Type}

/-- What a process comes to if all that goes on in it is given up. -/
def Process.forsaken : Process → Except RunError Val
  | .done r => r
  | .call _ => .error .cancelled
  | .named _ body => body.forsaken
  | .seq _ inner => inner.forsaken
  | .par _ left right => both left.forsaken right.forsaken

namespace Machine

variable {m : Machine σ ω} {w w' : World σ ω} {p p' : Process}

/-- What waits fails if it is given up.  It is cancelled, unless a branch has failed before and its
product has waited all the same. -/
theorem Settled.exists_forsaken (settled : m.Settled p) (pending : p.isDone = false) :
    ∃ e, p.forsaken = .error e ∧ (m.policy = .failFast ∨ ¬ p.HasFailed → e = .cancelled) := by
  induction p with
  | done => cases pending
  | call => exact ⟨_, rfl, fun _ ↦ rfl⟩
  | named site body ih => exact ih settled.1 settled.2
  | seq outer inner ih => exact ih settled.1 settled.2
  | par flag left right ihLeft ihRight =>
    obtain ⟨settledLeft, settledRight, open', notLeft, -⟩ := settled
    rw [Process.forsaken]
    cases doneLeft : left.isDone with
    | false =>
      obtain ⟨e, forsaken, cancelled⟩ := ihLeft settledLeft doneLeft
      rw [forsaken]
      refine ⟨e, rfl, fun calm ↦ cancelled (calm.imp_right fun healthy failed ↦ ?_)⟩
      exact healthy (.inl failed)
    | true =>
      have doneRight : right.isDone = false := by simpa [doneLeft] using open'
      rw [Process.eq_done_of_isDone doneLeft] at notLeft ⊢
      cases result : left.result with
      | ok a =>
        obtain ⟨e, forsaken, cancelled⟩ := ihRight settledRight doneRight
        rw [forsaken]
        refine ⟨e, rfl, fun calm ↦ cancelled (calm.imp_right fun healthy failed ↦ ?_)⟩
        exact healthy (.inr failed)
      | error e =>
        refine ⟨e, rfl, ?_⟩
        rintro (fast | healthy)
        · simp [ends, fast, result] at notLeft
        · exact (healthy (.inl trivial)).elim

/-- In a cancelled run a process comes at once to what is left of it. -/
theorem Resumes.eq_forsaken (h : m.Resumes settleStopped p w p' w') (settled : m.Settled p)
    (cancelled : w.cancelled = true) : p' = .done p.forsaken := by
  induction h with
  | done => rfl
  | call => rw [givesUp_settleStopped _ _ cancelled, Process.forsaken]
  | named _ leaves ih =>
    obtain ⟨e, forsaken, -⟩ := settled.1.exists_forsaken settled.2
    obtain rfl := ih settled.1 cancelled
    rw [forsaken] at leaves
    rw [Process.forsaken, forsaken]
    cases leaves with
    | error => rfl
    | wait pending => cases pending
  | seqOk _ _ ih =>
    obtain ⟨e, forsaken, -⟩ := settled.1.exists_forsaken settled.2
    have ok := ih settled.1 cancelled
    rw [forsaken] at ok
    cases ok
  | seqError _ ih => exact ih settled.1 cancelled
  | seqWait _ pending ih =>
    rw [ih settled.1 cancelled] at pending
    cases pending
  | parEnds _ ends ih =>
    obtain ⟨e, rfl, -⟩ := m.ends_iff.1 ends
    have left := Process.done.inj (ih settled.1 cancelled)
    rw [Process.forsaken, ← left]
    rfl
  | par first _ _ joins ihLeft ihRight =>
    obtain ⟨settledLeft, settledRight, -⟩ := settled
    obtain rfl := ihLeft settledLeft cancelled
    have cancelled' := (first.of_settleStopped settledLeft).1.trans cancelled
    obtain rfl := ihRight settledRight cancelled'
    rw [Process.forsaken]
    generalize Process.forsaken _ = l at joins ⊢
    generalize Process.forsaken _ = r at joins ⊢
    cases joins with
    | ok => rfl
    | left => rfl
    | right => rfl
    | dropLeft pending => cases pending
    | dropRight pending => cases pending
    | wait pending => cases pending

/-! ## From instant to instant until the caller cancels -/

/-- Which processes and worlds a process gets to at the ends of its instants, while the caller has
not cancelled it. -/
inductive Reaches (m : Machine σ ω) (cancelAt : Option Nat) :
    Process → World σ ω → Process → World σ ω → Prop
  | here {p : Process} {w : World σ ω} : Reaches m cancelAt p w p w
  | tick {p q : Process} {w u : World σ ω} {t : Nat} :
    p.nextWake = some t → (∀ c, cancelAt = some c → t < c) →
      Reaches m cancelAt (m.tick p { w with clock := t }).1 (m.tick p { w with clock := t }).2 q u →
      Reaches m cancelAt p w q u

/-- Which processes and worlds a run gets to. -/
def RunReaches (m : Machine σ ω) (plan : Plan) (input : Val) (s : σ) (o : ω) (clock : Nat)
    (cancelAfter : Option Nat) (p : Process) (w : World σ ω) : Prop :=
  m.Reaches (cancelAt clock cancelAfter) (m.begun plan input s o clock cancelAfter).1
    (m.begun plan input s o clock cancelAfter).2 p w

variable {cancelAt : Option Nat} {q : Process} {u : World σ ω}

/-- What a process gets to is the rest of it. -/
theorem Reaches.proceed_eq (h : m.Reaches cancelAt p w q u) :
    m.proceed cancelAt p w = m.proceed cancelAt q u := by
  induction h with
  | here => rfl
  | tick wake before _ ih => exact (m.proceed_of_wake _ wake before).trans ih

theorem Reaches.settled (h : m.Reaches cancelAt p w q u) (settled : m.Settled p) : m.Settled q := by
  induction h with
  | here => exact settled
  | tick _ _ _ ih => exact ih (m.settled_sweep _ _)

/-- A process that waits is not done. -/
theorem isDone_of_nextWake {t : Nat} (wake : p.nextWake = some t) : p.isDone = false := by
  cases p with
  | done => cases wake
  | _ => rfl

/-- A process that the caller cancels while it waits ends at once. -/
theorem Settled.proceed_of_cancel {c t : Nat} (settled : m.Settled p) (wake : p.nextWake = some t)
    (due : c ≤ t) :
    (m.proceed (some c) p w).1 = p.forsaken ∧ (m.proceed (some c) p w).2.clock = c := by
  have resumes := m.resumes settleStopped p { w with clock := c, cancelled := true }
  have ended : (m.sweep p { w with clock := c, cancelled := true }).1 = .done p.forsaken :=
    resumes.eq_forsaken settled rfl
  have quiet : (m.sweep p { w with clock := c, cancelled := true }).1.nextWake = none := by
    rw [ended]
    rfl
  rw [m.proceed_of_cancel w wake due, m.proceed_of_quiet _ _ quiet, ended]
  exact ⟨rfl, resumes.clock_eq clock_settleStopped⟩

end Machine

/-- If the caller cancels a run while it still waits for a call, then the run fails at that instant,
and what the branches of its open products have come to by then decides how: from the left, the
first branch that has failed or waits.  If this one waits then the run is cancelled.  It is so where
products fail fast, and wherever nothing has failed before. -/
theorem ended_of_cancelled (m : Machine σ ω) {plan : Plan} {input : Val} {s : σ} {o : ω}
    {clock d t : Nat} {p : Process} {w : World σ ω}
    (reaches : m.RunReaches plan input s o clock (some d) p w) (wake : p.nextWake = some t)
    (later : 0 < d) (due : clock + d ≤ t) :
    let ended := m.run plan input s o clock (some d)
    ended.2.clock = clock + d ∧ ∃ e, p.forsaken = .error e ∧ ended.1 = .error e ∧
      (m.policy = .failFast ∨ ¬ p.HasFailed → e = .cancelled) := by
  intro ended
  have at' : Machine.cancelAt clock (some d) = some (clock + d) := by
    simp [Machine.cancelAt, Nat.ne_of_gt later]
  have settled := reaches.settled (m.settled_sweep _ _)
  obtain ⟨e, forsaken, cancelled⟩ :=
    settled.exists_forsaken (Machine.isDone_of_nextWake wake)
  have rest : ended = m.proceed (some (clock + d)) p w := by
    rw [← at', ← reaches.proceed_eq]
    exact m.run_eq_proceed _ _ _ _ _ _
  obtain ⟨result, now⟩ := settled.proceed_of_cancel (w := w) wake due
  rw [rest]
  exact ⟨now, e, forsaken, result.trans forsaken, cancelled⟩

/-- A branch further to the left still waits, so the failure of the right one does not show. -/
theorem ended_of_cancelled_of_waiting_left :
    let script : Script := [("broken", [⟨5, false, false, .fail "no"⟩]),
      ("*", [⟨50, false, false, .echo⟩])]
    let m : Machine (Table Nat) Unit := ⟨script.executor, .blind, .waitAll⟩
    ∃ p, Program.parse "f = b ∘ a\n(f × broken) × c" = .ok p ∧ ∃ q w,
      m.RunReaches p.plan .unit [] () 0 (some 20) q w ∧ q.nextWake = some 50 ∧
        q.forsaken = .error .cancelled ∧
        (m.run p.plan .unit [] () 0 (some 20)).1 = .error .cancelled ∧
        (m.run p.plan .unit [] () 0 (some 20)).2.clock = 0 + 20 := by
  intro script m
  let begun (p : Program) := m.begun p.plan .unit [] () 0 (some 20)
  let ticked (p : Program) := m.tick (begun p).1 { (begun p).2 with clock := 5 }
  obtain ⟨p, parsed, first, second, forsaken⟩ :
      ∃ p, Program.parse "f = b ∘ a\n(f × broken) × c" = .ok p ∧ (begun p).1.nextWake = some 5 ∧
        (ticked p).1.nextWake = some 50 ∧ (ticked p).1.forsaken = .error .cancelled :=
    ⟨_, Except.eq_ok_get (by decide), by decide +kernel, by decide +kernel, by decide +kernel⟩
  have reaches : m.RunReaches p.plan .unit [] () 0 (some 20) (ticked p).1 (ticked p).2 := by
    refine .tick first ?_ .here
    rintro c ⟨⟩
    decide
  obtain ⟨clock, e, forsaken', ended, -⟩ :=
    ended_of_cancelled m reaches second (by decide) (by decide)
  cases forsaken.symm.trans forsaken'
  exact ⟨p, parsed, _, _, reaches, second, forsaken, ended, clock⟩

/-- The caller cancels a run while a branch waits whose product has lost its left branch already:
the run is not reported as cancelled. -/
theorem cancelled_run_blames_branch :
    let script : Script := [("broken", [⟨5, false, false, .fail "no"⟩]),
      ("slow", [⟨50, false, false, .echo⟩])]
    let m : Machine (Table Nat) Unit := ⟨script.executor, .blind, .waitAll⟩
    ∃ p, Program.parse "broken × slow" = .ok p ∧
      let ended := m.run p.plan .unit [] () 0 (some 20)
      ended.2.calls = [⟨"broken", .unit, 0, some (5, .failed)⟩,
          ⟨"slow", .unit, 0, some (20, .dropped)⟩] ∧
        ended.2.cancelled = true ∧ ended.1 = .error (.task "broken" .unit (.failed "no")) := by
  intro script m
  exact ⟨_, Except.eq_ok_get (by decide), by decide +kernel, by decide +kernel, by decide +kernel⟩

end Taskflow
