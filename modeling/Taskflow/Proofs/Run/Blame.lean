import Taskflow.Proofs.Run.Invariants
import Taskflow.Proofs.Run.Violations

/-!
# Where violations can come from

A guard looks at the value of every literal, of a task as well as of a functor name.  If it has
nothing against what the executor yields at the tasks of a plan then it finds all its violations at
functor names, whatever the plan, the policy, the delays and the cancellations (`run_blames`).

`BlamesOnly B` says of a plan, and of a process that has come of it, that all its functor names
satisfy `B` and that the values of its tasks are beyond reproach.  The induction is on the steps of
the run; a value is traced back no further than to its literal, so nothing has to be known of how
types are inferred.
-/

namespace Taskflow

variable {σ : Type}

section BlamesOnly

variable (g : Guard) (e : Executor σ) (B : Site → Prop)

/-- Whether a guard has nothing against what the tasks of a plan yield, and all functor names of the
plan satisfy `B`. -/
def Plan.BlamesOnly : Plan → Prop
  | .task site => ∀ input s v, (e.respond site.name input s).1.result = .ok v →
      g.violation? site v = none
  | .named site body => B site ∧ body.BlamesOnly
  | .seq outer inner => outer.BlamesOnly ∧ inner.BlamesOnly
  | .par left right => left.BlamesOnly ∧ right.BlamesOnly

/-- Whether a guard has nothing against what the calls of a process yield and what it has still to
begin, all its functor names satisfy `B`, and so does the site of the violation that it has failed
for, if it has. -/
def Process.BlamesOnly : Process → Prop
  | .done (.error (.violation found)) => B found.site
  | .done _ => True
  | .call c => ∀ v, c.reply.result = .ok v → g.violation? c.site v = none
  | .named site body => B site ∧ body.BlamesOnly
  | .seq outer inner => outer.BlamesOnly g e B ∧ inner.BlamesOnly
  | .par _ left right => left.BlamesOnly ∧ right.BlamesOnly

/-- Whether all violations that a guard has found are at sites that satisfy `B`. -/
def World.BlamesOnly (w : World σ (List Violation)) : Prop := ∀ found ∈ w.observer, B found.site

end BlamesOnly

theorem World.BlamesOnly.of_observer_eq {B : Site → Prop} {w w' : World σ (List Violation)}
    (log : w.BlamesOnly B) (same : w'.observer = w.observer) : w'.BlamesOnly B := by
  intro found mem
  rw [same] at mem
  exact log found mem

namespace Machine

variable {m : Machine σ (List Violation)} {g : Guard} {B : Site → Prop}
  {w w' : World σ (List Violation)} {q q' : Process}

section

variable (watched : m.observer = g.observer)
include watched

/-- A value can only be held against a site that satisfies `B`, or not at all. -/
theorem observe_blames {site : Site} {v : Val} (blamed : g.violation? site v = none ∨ B site)
    (log : w.BlamesOnly B) :
    (m.observe site v w).1.BlamesOnly g m.executor B ∧ (m.observe site v w).2.BlamesOnly B := by
  cases found : g.violation? site v with
  | none =>
    simp only [observe, watched, Guard.observer, found]
    exact ⟨trivial, log⟩
  | some violation =>
    have at_site : violation.site = site := by
      obtain ⟨_, _, -, -, -, rfl⟩ := Guard.violation?_eq_some.1 found
      rfl
    have blamed : B violation.site := at_site ▸ blamed.resolve_left (by simp [found])
    have log' : ∀ other ∈ w.observer ++ [violation], B other.site := by
      intro other mem
      rcases List.mem_append.1 mem with mem | mem
      · exact log other mem
      · exact List.mem_singleton.1 mem ▸ blamed
    cases strict : g.strict with
    | false =>
      simp only [observe, watched, Guard.observer, found, strict]
      exact ⟨trivial, log'⟩
    | true =>
      simp only [observe, watched, Guard.observer, found, strict, if_true]
      exact ⟨blamed, log'⟩

theorem finish_blames {c : Call} (blames : (Process.call c).BlamesOnly g m.executor B)
    (log : w.BlamesOnly B) :
    (m.finish c w).1.BlamesOnly g m.executor B ∧ (m.finish c w).2.BlamesOnly B := by
  have closed : ((w.cancelBy c.reply).close c.ticket c.outcome).BlamesOnly B :=
    log.of_observer_eq (by simp)
  unfold finish
  dsimp only
  split
  next v yields => exact observe_blames watched (.inl (blames v yields)) closed
  next f _ =>
    refine ⟨?_, closed⟩
    rw [Call.blame]
    split <;> trivial

/-- To let only functor names be blamed is kept by the steps of a run. -/
theorem invariant_blamesOnly :
    m.Invariant (Plan.BlamesOnly g m.executor B) (Process.BlamesOnly g m.executor B) B
      (World.BlamesOnly B) where
  namedPlan blames := blames
  seqPlan blames := blames
  parPlan blames := blames
  named := .rfl
  seq := .rfl
  par := .rfl
  pair _ _ := trivial
  cancelled := trivial
  asks {_ v w} blames log := ⟨fun v' yields ↦ blames v w.executor v' yields, log⟩
  finish := finish_blames watched
  observe blamed _ log := observe_blames watched (.inr blamed) log
  untouched log same _ := log.of_observer_eq same

/-- Every violation that a guarded run of a plan fails for or keeps is at one of the plan's functor
names, if nothing can be held against what the tasks of the plan yield. -/
theorem run_blames {plan : Plan} (blames : plan.BlamesOnly g m.executor B) (input : Val) (s : σ)
    (clock : Nat) (cancelAfter : Option Nat) :
    (∀ found, (m.run plan input s [] clock cancelAfter).1 = .error (.violation found) →
        B found.site) ∧
      ∀ found ∈ (m.run plan input s [] clock cancelAfter).2.observer, B found.site := by
  have none : (initial s [] clock cancelAfter : World σ (List Violation)).BlamesOnly B :=
    fun _ mem ↦ (List.not_mem_nil mem).elim
  have ends := (invariant_blamesOnly watched).run blames input s [] clock cancelAfter none
  refine ⟨fun found failed ↦ ?_, ends.2⟩
  have blamed := ends.1
  rwa [failed] at blamed

end

end Machine

end Taskflow
