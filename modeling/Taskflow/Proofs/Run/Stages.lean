import Taskflow.Grammar.Parse
import Taskflow.Proofs.Except
import Taskflow.Proofs.Run.Evaluations
import Taskflow.Run.Script

/-!
# Stages do not overlap

A composition hands the value of its first stage to the second one.  Wherever this happens in a run,
all calls of the first stage have ended and none of the second one has begun; where the first stage
comes to no value the second one calls nothing (`staged_of_run`).
-/

namespace Taskflow

variable {σ ω : Type}

/-- How the stages of a composition go on one after the other in a run that ends in the world `w`.
The second stage begins on `x` in the world `u`. -/
structure History.Staged (w : World σ ω) (visit : Visit σ ω) (outer inner : History σ ω) :
    Prop where
  /-- The first stage is evaluated on the input of the composition. -/
  first : inner.Begins visit.input visit.world
  /-- The second stage is evaluated on what the first one has come to, if that is a value. -/
  second : ∀ x, (∃ u, outer.Begins x u) ↔ inner.result? = some (.ok x)
  /-- When it begins, the log says already how each call of the first stage has ended. -/
  before : ∀ x u, outer.Begins x u → ∀ i ∈ inner.tickets, ∃ r t o,
    u.calls[i]? = some r ∧ w.calls[i]? = some r ∧ r.ending = some (t, o) ∧ t ≤ u.clock
  /-- Its own calls come later. -/
  after : ∀ x u, outer.Begins x u → ∀ i ∈ outer.tickets, ∃ r,
    u.calls.length ≤ i ∧ w.calls[i]? = some r ∧ u.clock ≤ r.start
  /-- It makes one at once, unless it is cancelled. -/
  atOnce : ∀ x u, outer.Begins x u → u.stopped = false → ∃ r,
    u.calls.length ∈ outer.tickets ∧ w.calls[u.calls.length]? = some r ∧ r.start = u.clock
  /-- If it is cancelled, it makes none. -/
  cancelled : ∀ x u, outer.Begins x u → u.stopped = true → outer.tickets = []
  /-- Nor does it without a value of the first stage. -/
  without : (∀ x, inner.result? ≠ some (.ok x)) → outer.tickets = []

/-- The stages of every composition in a history go on one after the other. -/
theorem History.Recounts.staged {m : Machine σ ω} {s : σ} {plan : Plan} {h : History σ ω}
    {p : Process} {w : World σ ω} (recounts : h.Recounts m s plan p w) {visit : Visit σ ω}
    {outer inner : History σ ω} (part : .seq visit outer inner ∈ h.parts) :
    Staged w visit outer inner := by
  obtain ⟨node, -, soundOuter⟩ := all_seq.1 (recounts.sound.of_mem part)
  obtain ⟨first, follows⟩ := node.shaped
  have logged {x u result} (visited : outer.visit? = some ⟨x, u, result⟩) :=
    soundOuter.self.logged _ visited
  have entry {i : Nat} (hi : i ∈ outer.tickets) : ∃ r, w.calls[i]? = some r := by
    have mem := tickets_subset part (List.mem_append_right _ hi)
    have less := List.mem_range.1 (recounts.tickets.mem_iff.1 mem)
    exact ⟨_, List.getElem?_eq_getElem less⟩
  constructor
  case first => exact first
  case second =>
    intro x
    exact ⟨fun ⟨u, begins⟩ ↦ (follows.begins x u begins).1, follows.reached x⟩
  case before =>
    rintro x u ⟨result, visited⟩ i hi
    obtain ⟨r, t, o, found, ended, le⟩ := (follows.begins x u ⟨result, visited⟩).2 i hi
    have kept := (logged visited).precedes.closed found (by simp [ended])
    exact ⟨r, t, o, found, kept, ended, le⟩
  case after =>
    rintro x u ⟨result, visited⟩ i hi
    obtain ⟨r, found⟩ := entry hi
    have le := (logged visited).later i hi
    exact ⟨r, le, found, (logged visited).precedes.later found le⟩
  case atOnce =>
    rintro x u ⟨result, visited⟩ live
    obtain ⟨mem, r, found, start⟩ := (logged visited).atOnce live
    exact ⟨r, mem, found, start⟩
  case cancelled =>
    rintro x u ⟨result, visited⟩ stopped
    exact ((logged visited).stopped stopped).1
  case without =>
    intro notOk
    cases visited : outer.visit? with
    | none => exact tickets_eq_nil visited
    | some visit =>
      have begins : outer.Begins visit.input visit.world := ⟨visit.result, visited⟩
      exact (notOk _ (follows.begins _ _ begins).1).elim

/-- In every run of a program each evaluation of a composition keeps its stages apart.  The history
tells which evaluations these are, and it has all that the run begins. -/
theorem staged_of_run {source : String} {p : Program} (parsed : Program.parse source = .ok p)
    (m : Machine σ ω) (input : Val) (s : σ) (o : ω) (clock : Nat) (cancelAfter : Option Nat) :
    let ended := m.run p.plan input s o clock cancelAfter
    let h := m.history p.plan input s o clock cancelAfter
    h.Tells p ended ∧ h.visits = m.evaluatedIn p.plan input s o clock cancelAfter ∧
      ∀ visit outer inner, .seq visit outer inner ∈ h.parts →
        History.Staged ended.2 visit outer inner := by
  refine ⟨History.tells_of_run parsed m _ _ _ _ _, m.visits_history _ _ _ _ _ _, ?_⟩
  intro visit outer inner part
  exact (History.Recounts.of_run m _ _ _ _ _ _).staged part

/-- The right branch fails while the left one is in the middle of a functor: of the three
compositions one hands on a value, one is given up in its first stage and one fails in it. -/
theorem staged_of_run_of_failing_branch :
    let script : Script := [("broken", [⟨15, false, false, .fail "no"⟩]),
      ("*", [⟨10, false, false, .echo⟩])]
    let m : Machine (Table Nat) Unit := ⟨script.executor, .blind, .failFast⟩
    let stages : History (Table Nat) Unit → Option (List Nat × List Nat)
      | .seq _ outer inner => some (inner.tickets, outer.tickets)
      | _ => none
    ∃ p, Program.parse "f = c ∘ b\n(last ∘ f) × (d ∘ broken)" = .ok p ∧
      let ended := m.run p.plan .unit [] () 0 none
      let h := m.history p.plan .unit [] () 0 none
      ended.2.calls = [⟨"b", .unit, 0, some (10, .ok)⟩, ⟨"broken", .unit, 0, some (15, .failed)⟩,
          ⟨"c", .unit, 10, some (15, .dropped)⟩] ∧
        h.parts.filterMap stages = [([0, 2], []), ([0], [2]), ([1], [])] ∧
        ∀ visit outer inner, .seq visit outer inner ∈ h.parts →
          History.Staged ended.2 visit outer inner := by
  intro script m stages
  obtain ⟨p, parsed, calls, found⟩ :
      ∃ p, Program.parse "f = c ∘ b\n(last ∘ f) × (d ∘ broken)" = .ok p ∧
        (m.run p.plan .unit [] () 0 none).2.calls = [⟨"b", .unit, 0, some (10, .ok)⟩,
          ⟨"broken", .unit, 0, some (15, .failed)⟩, ⟨"c", .unit, 10, some (15, .dropped)⟩] ∧
        (m.history p.plan .unit [] () 0 none).parts.filterMap stages =
          [([0, 2], []), ([0], [2]), ([1], [])] :=
    ⟨_, Except.eq_ok_get (by decide), by decide +kernel, by decide +kernel⟩
  obtain ⟨-, -, staged⟩ := staged_of_run parsed m .unit [] () 0 none
  exact ⟨p, parsed, calls, found, staged⟩

end Taskflow
