import Taskflow.Proofs.Run.Invariants

/-!
# Confined runs

A run calls nothing but the tasks of its plan, and fails for no other reason than one that the
executor, the observer or a cancellation gives.  Both are said at once: if the tasks of a plan
satisfy `P`, and `P` is all it takes for the errors of a run to satisfy `Q` (`Machine.Confines`),
then every call in the log satisfies `P` and every error satisfies `Q` (`run_confined`).
-/

namespace Taskflow

variable {P : String → Prop} {Q : RunError → Prop}

/-- A plan whose tasks all satisfy `P`. -/
def Plan.Confined (P : String → Prop) : Plan → Prop
  | .task site => P site.name
  | .named _ body => body.Confined P
  | .seq outer inner => outer.Confined P ∧ inner.Confined P
  | .par left right => left.Confined P ∧ right.Confined P

/-- A process that will only call tasks that satisfy `P`, and fails with an error that satisfies `Q`
if a call that goes on makes it fail or if it has failed already. -/
def Process.Confined (P : String → Prop) (Q : RunError → Prop) : Process → Prop
  | .done r => ∀ e, r = .error e → Q e
  | .call c => ∀ f, c.reply.result = .error f → Q (.task c.site.name c.input f)
  | .named _ body => body.Confined P Q
  | .seq outer inner => outer.Confined P ∧ inner.Confined P Q
  | .par _ left right => left.Confined P Q ∧ right.Confined P Q

/-- A log whose calls all satisfy `P`. -/
def World.Confined {σ ω : Type} (P : String → Prop) (w : World σ ω) : Prop := ∀ k ∈ w.made, P k.1

variable {σ ω : Type}

/-- All errors of a run satisfy `Q` if all its tasks satisfy `P`. -/
structure Machine.Confines (m : Machine σ ω) (P : String → Prop) (Q : RunError → Prop) : Prop where
  cancelled : Q .cancelled
  failures : ∀ {task input s f}, P task →
    (m.executor.respond task input s).1.result = .error f → Q (.task task input f)
  refusals : ∀ {site v o e}, (m.observer.observe site v o).1 = some e → Q e

theorem World.Confined.of_made_eq {w w' : World σ ω} (confined : w.Confined P)
    (same : w'.made = w.made) : w'.Confined P := by
  intro k hk
  rw [same] at hk
  exact confined k hk

namespace Machine

variable {m : Machine σ ω} {w w' : World σ ω}

/-- A run that may fail for any reason is confined to its tasks. -/
theorem confines_tasks (m : Machine σ ω) (P : String → Prop) : m.Confines P fun _ ↦ True :=
  ⟨trivial, fun _ _ ↦ trivial, fun _ ↦ trivial⟩

theorem Confines.observe (confines : m.Confines P Q) (site : Site) (v : Val) (w : World σ ω) :
    (m.observe site v w).1.Confined P Q := by
  unfold Machine.observe
  split
  next => rintro e ⟨⟩
  next refused =>
    rintro e ⟨⟩
    exact confines.refusals (congrArg Prod.fst refused)

theorem Confines.finish (confines : m.Confines P Q) {c : Call}
    (confined : (Process.call c).Confined P Q) (w : World σ ω) :
    (m.finish c w).1.Confined P Q := by
  unfold Machine.finish
  dsimp only
  split
  next v yields => exact confines.observe _ _ _
  next f fails =>
    rintro e ⟨⟩
    rw [Call.blame]
    split
    · exact confines.cancelled
    · exact confined f fails

/-- Nothing is called before a run. -/
theorem confined_initial (s : σ) (o : ω) (clock : Nat) (cancelAfter : Option Nat) :
    (initial s o clock cancelAfter).Confined P := by
  intro k hk
  simp [initial, World.made] at hk

/-- To be confined is kept by the steps of a run. -/
theorem Confines.invariant (confines : m.Confines P Q) :
    m.Invariant (Plan.Confined P) (Process.Confined P Q) (fun _ ↦ True) (World.Confined P) where
  namedPlan body := ⟨trivial, body⟩
  seqPlan confined := confined
  parPlan confined := confined
  named := (and_iff_right trivial).symm
  seq := .rfl
  par := .rfl
  pair _ _ := by rintro e ⟨⟩
  cancelled := by
    rintro e ⟨⟩
    exact confines.cancelled
  asks {site v w} mem log := by
    refine ⟨fun f fails ↦ confines.failures mem fails, fun k hk ↦ ?_⟩
    rw [made_asked, List.mem_append, List.mem_singleton] at hk
    rcases hk with hk | rfl
    · exact log k hk
    · exact mem
  finish confined log := ⟨confines.finish confined _, log.of_made_eq (made_finish _ _)⟩
  observe _ _ log :=
    ⟨confines.observe _ _ _, log.of_made_eq (m.observe_sameLog _ _ _).2.made_eq⟩
  untouched log _ same := log.of_made_eq same

/-- A run of a confined plan calls nothing but the tasks of the plan, and it fails for a reason that
these tasks can give. -/
theorem run_confined (confines : m.Confines P Q) {plan : Plan} (confined : plan.Confined P)
    (input : Val) (s : σ) (o : ω) (clock : Nat) (cancelAfter : Option Nat) :
    (∀ e, (m.run plan input s o clock cancelAfter).1 = .error e → Q e) ∧
      (m.run plan input s o clock cancelAfter).2.Confined P := by
  obtain ⟨ends, log⟩ := confines.invariant.run confined input s o clock cancelAfter
    (confined_initial s o clock cancelAfter)
  exact ⟨ends, log⟩

end Machine

end Taskflow
