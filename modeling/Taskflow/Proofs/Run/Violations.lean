import Taskflow.Proofs.Except
import Taskflow.Proofs.Run.Completions
import Taskflow.Proofs.Run.Watching
import Taskflow.Run.Script
import Taskflow.Typing.Check

/-!
# Which violations are found

A guard that is not strict refuses nothing, so it is told of what the literals of a run yield, in the
order of time, and keeps the violations among these values.  If the run ends in a value then these
are the values of all literals of its plan, each as often as it occurs (`violations_of_run`).
-/

namespace Taskflow

variable {σ : Type}

/-- The literals of a plan, those of first stages and of left branches first and functor names after
those of their bodies. -/
def Plan.literals : Plan → List Site
  | .task site => [site]
  | .named site body => body.literals ++ [site]
  | .seq outer inner => inner.literals ++ outer.literals
  | .par left right => left.literals ++ right.literals

/-- A value is made of the values of all literals, each of which has one. -/
theorem History.All.completions_eq {ω : Type} {e : Executor σ} {s : σ} {cancelAt : Option Nat}
    {w : World σ ω} {h : History σ ω} (explained : h.All (Explained e s cancelAt w))
    (ok : h.All fun g ↦ ∃ x, g.result? = some (.ok x)) :
    (h.completions w).map (·.site) = h.plan.literals := by
  induction h with
  | unreached =>
    obtain ⟨x, result⟩ := all_unreached.1 ok
    cases result
  | task visit site ticket =>
    obtain ⟨x, result⟩ := all_task.1 ok
    have result' : visit.result = some (.ok x) := result
    have explained := all_task.1 explained
    cases ticket with
    | none => cases result'.symm.trans explained.1
    | some i =>
      obtain ⟨r, reply, explains⟩ := explained
      have explains' := explains.result
      rw [result'] at explains'
      cases explains' with
      | ok _ succeeded =>
        have ended : w.endOf i = some (r.due reply) := by
          rw [World.endOf, explains.record, Option.bind_some, succeeded.ending]
          rfl
        simp [completions, Visit.completion, ended, result', plan, Plan.literals]
  | named visit site body ih =>
    obtain ⟨⟨x, result⟩, okBody⟩ := all_named.1 ok
    have result' : visit.result = some (.ok x) := result
    have same := ih (all_named.1 explained).2 okBody
    simp [completions, Visit.completion, result', same, plan, Plan.literals]
  | seq visit outer inner ihOuter ihInner =>
    obtain ⟨-, okInner, okOuter⟩ := all_seq.1 ok
    obtain ⟨-, explainedInner, explainedOuter⟩ := all_seq.1 explained
    rw [completions, List.map_append, ihInner explainedInner okInner,
      ihOuter explainedOuter okOuter]
    rfl
  | par visit left right ihLeft ihRight =>
    obtain ⟨-, okLeft, okRight⟩ := all_par.1 ok
    obtain ⟨-, explainedLeft, explainedRight⟩ := all_par.1 explained
    rw [completions, List.map_append, ihLeft explainedLeft okLeft, ihRight explainedRight okRight]
    rfl

/-- What a guard finds is kept as it comes. -/
theorem Guard.watch_eq (g : Guard) (found : List Violation) (cs : List Completion) :
    g.observer.watch found cs = found ++ cs.filterMap fun c ↦ g.violation? c.site c.output := by
  induction cs generalizing found with
  | nil => exact (List.append_nil found).symm
  | cons c cs ih =>
    rw [Observer.watch, List.foldl_cons, ← Observer.watch, ih, List.filterMap_cons]
    cases violation : g.violation? c.site c.output <;> simp [observer, violation]

/-- Which values a guard takes for violations: those that have a type of their own, which is
incompatible with what the type of their node promises. -/
theorem Guard.violation?_eq_some {g : Guard} {site : Site} {v : Val} {found : Violation} :
    g.violation? site v = some found ↔ ∃ promised actual, g.nodeTypes.get? site.node = some promised ∧
      v.runtimeType = some actual ∧ promised.arrow.2.compatible actual = false ∧
      found = ⟨site, promised.arrow.2, actual⟩ := by
  simp only [violation?, Option.bind_eq_bind, Option.bind_eq_some_iff]
  constructor
  · rintro ⟨promised, typed, actual, known, contradicts⟩
    refine ⟨promised, actual, typed, known, ?_⟩
    split at contradicts
    next => cases contradicts
    next incompatible =>
      exact ⟨Bool.eq_false_iff.2 incompatible, (Option.some.inj contradicts).symm⟩
  · rintro ⟨promised, actual, typed, known, incompatible, rfl⟩
    refine ⟨promised, typed, actual, known, ?_⟩
    rw [if_neg (Bool.eq_false_iff.1 incompatible)]

/-- If a run of a parsed program under a guard that is not strict ends in a value, then its list has
just the violations among the values of its literals.  Every literal of the plan has one, each as
often as it occurs there, and they are looked at in the order of time.  What the executor remembers
of earlier runs makes no difference to that. -/
theorem violations_of_run {text : String} {p : Program} (parsed : Program.parse text = .ok p)
    (report : Report) (e : Executor σ) (policy : Policy) (input : Val) (s : σ) (clock : Nat)
    (cancelAfter : Option Nat) :
    let guard : Guard := ⟨report.nodeTypes, false⟩
    let m : Machine σ (List Violation) := ⟨e, guard.observer, policy⟩
    let ended := m.run p.plan input s [] clock cancelAfter
    let h := m.history p.plan input s [] clock cancelAfter
    h.Tells p ended ∧ ∀ v, ended.1 = .ok v →
      (∀ g ∈ h.parts, ∃ x, g.result? = some (.ok x)) ∧
      (h.completions ended.2).map (·.site) = p.plan.literals ∧
      ended.2.observer = (Completion.inOrder (h.completions ended.2)).filterMap
        (fun c ↦ guard.violation? c.site c.output) ∧
      ∀ site v found, guard.violation? site v = some found ↔ ∃ promised actual,
        report.nodeTypes.get? site.node = some promised ∧ v.runtimeType = some actual ∧
          promised.arrow.2.compatible actual = false ∧ found = ⟨site, promised.arrow.2, actual⟩ := by
  intro guard m ended h
  have accepts : m.observer.Accepts := Guard.accepts report.nodeTypes
  have accounts := History.Accounts.of_run accepts s p.plan input [] clock cancelAfter
  refine ⟨History.tells_of_run parsed m input s [] clock cancelAfter, fun v ok ↦ ?_⟩
  have result := accounts.tracks.result?_eq.trans (congrArg some ok)
  have parts := accounts.composed.ok_of_composed result
  refine ⟨parts, ?_, ?_, fun site v found ↦ Guard.violation?_eq_some⟩
  · rw [accounts.explained.completions_eq parts, accounts.plan]
  · rw [History.observer_of_run accepts, Guard.watch_eq, List.nil_append]

/-- A task beside a functor finds its violation before the functor does, which was called first. -/
theorem violations_of_run_beside_functor :
    let text := "a :: () -> X\nf = a\nf × a"
    let script : Script := [("a", [⟨2, false, false, .tag "V"⟩, ⟨1, false, false, .tag "V"⟩])]
    let yields (name : String) : Ty := .fn .unit (.mono name)
    let types : SortedMap NodeId Ty := ⟨[(0, yields "X"), (1, yields "X"), (2, yields "X"),
      (3, yields "X"), (4, .fn .unit (.prod (.mono "X") (.mono "X")))], by decide⟩
    let guard : Guard := ⟨types, false⟩
    let m : Machine (Table Nat) (List Violation) := ⟨script.executor, guard.observer, .failFast⟩
    ∃ p, Program.parse text = .ok p ∧ (p.check .empty).nodeTypes = types ∧
      let ended := m.run p.plan .unit [] [] 0 none
      let h := m.history p.plan .unit [] [] 0 none
      ended.1.toOption.isSome = true ∧
        ended.2.observer.map (·.site.node) = [3, 0, 2] ∧
        ended.2.observer = (Completion.inOrder (h.completions ended.2)).filterMap fun c ↦
          guard.violation? c.site c.output := by
  intro text script yields types guard m
  let p := (Program.parse text).toOption.get (by decide +kernel)
  have parsed : Program.parse text = .ok p := Except.eq_ok_get _
  have same : (p.check .empty).nodeTypes = types := by decide +kernel
  have told :=
    (violations_of_run parsed (p.check .empty) script.executor .failFast .unit [] 0 none).2
  rw [same] at told
  refine ⟨p, parsed, same, ?_⟩
  intro ended h
  have ok : ended.1.toOption.isSome = true := by decide +kernel
  exact ⟨ok, by decide +kernel, (told _ (Except.eq_ok_get ok)).2.2.1⟩

end Taskflow
