import Taskflow.Grammar.Parse
import Taskflow.Proofs.Except
import Taskflow.Proofs.Run.Evaluations
import Taskflow.Run.Script

/-!
# Both branches of a product

A product begins its left branch, and its right one at the same instant, when the left one has got
as far as it can without waiting.  Unless it is cancelled by then each branch calls a task at that
instant (`launched_of_run`), with one exception: a left branch that has failed without waiting ends
a product that fails fast, and the right branch is not begun (`left_branch_alone`).
-/

namespace Taskflow

variable {σ ω : Type}

/-- Whether the first of some calls begins at the instant `t`. -/
def World.FirstAt (w : World σ ω) (t : Nat) (entries : List Nat) : Prop :=
  ∃ i ∈ entries, (∀ j ∈ entries, i ≤ j) ∧ ∃ r, w.calls[i]? = some r ∧ r.start = t

/-- Whether some calls begin and end at the instant `t`. -/
def World.WithoutWaiting (w : World σ ω) (t : Nat) (entries : List Nat) : Prop :=
  ∀ i ∈ entries, ∃ r o, w.calls[i]? = some r ∧ r.start = t ∧ r.ending = some (t, o)

/-- How a product that is not cancelled begins its branches in a run that ends in the world `w`. -/
structure History.Launched (m : Machine σ ω) (w : World σ ω) (visit : Visit σ ω)
    (left right : History σ ω) : Prop where
  begins : left.Begins visit.input (visit.world.enter false)
  calls : w.FirstAt visit.world.clock left.tickets
  /-- The right branch begins on the same input at the same instant. -/
  begins' : ∀ v u, right.Begins v u → v = visit.input ∧ u.clock = visit.world.clock
  /-- It calls a task then, unless the left one has cancelled it. -/
  calls' : ∀ v u, right.Begins v u →
    if u.stopped then right.tickets = [] else w.FirstAt visit.world.clock right.tickets
  /-- It begins unless the left one has ended the product before. -/
  alone : right.visit? = none → m.policy = .failFast ∧
    (∃ e, left.result? = some (.error e) ∧ visit.result = some (.error e)) ∧
    w.WithoutWaiting visit.world.clock left.tickets

namespace History

variable {m : Machine σ ω} {s : σ} {plan : Plan} {h : History σ ω} {p : Process} {w : World σ ω}

/-- An evaluation that is not cancelled calls a task when it begins. -/
theorem Sound.firstAt (sound : h.Sound m w) {v : Val} {u : World σ ω} (begins : h.Begins v u)
    (live : u.stopped = false) : w.FirstAt u.clock h.tickets := by
  obtain ⟨result, visited⟩ := begins
  have logged := sound.logged _ visited
  obtain ⟨mem, r, found, start⟩ := logged.atOnce live
  exact ⟨_, mem, logged.later, r, found, start⟩

/-- Every product in a history launches its branches. -/
theorem Recounts.launched (recounts : h.Recounts m s plan p w) {visit : Visit σ ω}
    {left right : History σ ω} (part : .par visit left right ∈ h.parts)
    (live : visit.world.stopped = false) : Launched m w visit left right := by
  obtain ⟨node, soundLeft, soundRight⟩ := all_par.1 (recounts.sound.of_mem part)
  obtain ⟨begins, launches⟩ := node.shaped
  constructor
  case begins => exact begins
  case calls =>
    have first := soundLeft.self.firstAt begins ((World.stopped_enter _).trans live)
    rwa [World.clock_enter] at first
  case begins' => exact launches.begins
  case calls' =>
    intro v u begins
    split
    next stopped =>
      obtain ⟨result, visited⟩ := begins
      exact ((soundRight.self.logged _ visited).stopped stopped).1
    next live =>
      rw [← (launches.begins v u begins).2]
      exact soundRight.self.firstAt begins (by simpa using live)
  case alone =>
    intro absent
    obtain ⟨policy, failed, u, instant, precedes, ends⟩ := launches.alone absent
    obtain ⟨result, visited⟩ := begins
    have logged := soundLeft.self.logged _ visited
    refine ⟨policy, failed, fun i hi ↦ ?_⟩
    obtain ⟨r, t, o, found, ended, le⟩ := ends i hi
    have found := precedes.closed found (by simp [ended])
    have began := logged.precedes.later found (logged.later i hi)
    have past := (recounts.annals.past r (List.mem_of_getElem? found)).2 t o ended
    rw [instant] at le
    exact ⟨r, o, found, Nat.le_antisymm (Nat.le_trans past.1 le) began,
      by rw [ended, Nat.le_antisymm le (Nat.le_trans began past.1)]⟩

end History

/-- In every run of a program each product that is not cancelled launches its branches. -/
theorem launched_of_run {source : String} {p : Program} (parsed : Program.parse source = .ok p)
    (m : Machine σ ω) (input : Val) (s : σ) (o : ω) (clock : Nat) (cancelAfter : Option Nat) :
    let ended := m.run p.plan input s o clock cancelAfter
    let h := m.history p.plan input s o clock cancelAfter
    h.Tells p ended ∧ h.visits = m.evaluatedIn p.plan input s o clock cancelAfter ∧
      ∀ visit left right, .par visit left right ∈ h.parts → visit.world.stopped = false →
        History.Launched m ended.2 visit left right := by
  refine ⟨History.tells_of_run parsed m _ _ _ _ _, m.visits_history _ _ _ _ _ _, ?_⟩
  intro visit left right part live
  exact (History.Recounts.of_run m _ _ _ _ _ _).launched part live

/-- A product launches both branches though the right one fails at once, as the left one waits. -/
theorem launched_of_run_of_failing_right :
    let script : Script := [("broken", [⟨0, false, false, .fail "no"⟩]),
      ("slow", [⟨10, false, false, .echo⟩])]
    let m : Machine (Table Nat) Unit := ⟨script.executor, .blind, .failFast⟩
    let branches : History (Table Nat) Unit → Option (List Nat × List Nat)
      | .par _ left right => some (left.tickets, right.tickets)
      | _ => none
    ∃ p, Program.parse "(slow × slow) × broken" = .ok p ∧
      let ended := m.run p.plan .unit [] () 0 none
      let h := m.history p.plan .unit [] () 0 none
      ended.2.calls = [⟨"slow", .unit, 0, some (0, .dropped)⟩,
          ⟨"slow", .unit, 0, some (0, .dropped)⟩, ⟨"broken", .unit, 0, some (0, .failed)⟩] ∧
        h.parts.filterMap branches = [([0, 1], [2]), ([0], [1])] ∧
        ∀ visit left right, .par visit left right ∈ h.parts → visit.world.stopped = false →
          History.Launched m ended.2 visit left right := by
  intro script m branches
  obtain ⟨p, parsed, calls, found⟩ :
      ∃ p, Program.parse "(slow × slow) × broken" = .ok p ∧
        (m.run p.plan .unit [] () 0 none).2.calls = [⟨"slow", .unit, 0, some (0, .dropped)⟩,
          ⟨"slow", .unit, 0, some (0, .dropped)⟩, ⟨"broken", .unit, 0, some (0, .failed)⟩] ∧
        (m.history p.plan .unit [] () 0 none).parts.filterMap branches =
          [([0, 1], [2]), ([0], [1])] :=
    ⟨_, Except.eq_ok_get (by decide), by decide +kernel, by decide +kernel⟩
  obtain ⟨-, -, launched⟩ := launched_of_run parsed m .unit [] () 0 none
  exact ⟨p, parsed, calls, found, launched⟩

/-- The left branch of a product that fails fast fails without waiting, and no task of the right one
is called, though nothing has been cancelled. -/
theorem left_branch_alone :
    let script : Script := [("broken", [⟨0, false, false, .fail "no"⟩]),
      ("fine", [⟨10, false, false, .echo⟩])]
    let m : Machine (Table Nat) Unit := ⟨script.executor, .blind, .failFast⟩
    ∃ p, Program.parse "broken × fine" = .ok p ∧
      let ended := m.run p.plan .unit [] () 0 none
      ended.2.calls = [⟨"broken", .unit, 0, some (0, .failed)⟩] ∧ ended.2.cancelled = false ∧
        ended.1 = .error (.task "broken" .unit (.failed "no")) := by
  intro script m
  exact ⟨_, Except.eq_ok_get (by decide), by decide +kernel, by decide +kernel, by decide +kernel⟩

end Taskflow
