import Taskflow.Proofs.Run.Steps
import Taskflow.Proofs.Run.World
import Taskflow.Run.Script

/-!
# Runs in which nothing is cancelled

If no reply cancels anything and the caller does not either, then no scope is ever cancelled: every
instant leaves the scopes as they were (`Starts.scopes`, `Resumes.scopes`), and giving up what is
cancelled changes nothing (`Resumes.eq_of_quiet`).  Without an observer such a machine is *plain*:
the end of a call closes its entry in the log and does nothing else.
-/

namespace Taskflow

variable {σ ω : Type}

/-- An executor whose replies cancel nothing. -/
def Executor.Quiet (e : Executor σ) : Prop := ∀ task input s,
  (e.respond task input s).1.cancelsScope = false ∧ (e.respond task input s).1.cancelsRun = false

/-- A limit on the time of calls cancels nothing. -/
theorem Executor.Quiet.within {e : Executor σ} (quiet : e.Quiet) (limit : Nat) :
    (e.within limit).Quiet := by
  intro task input s
  rw [Executor.within]
  dsimp only
  split
  · exact quiet task input s
  · exact ⟨rfl, rfl⟩

/-- Nor does a script whose steps cancel nothing. -/
theorem Script.quiet_executor {script : Script}
    (quiet : ∀ e ∈ script, ∀ step ∈ e.2, step.cancelsScope = false ∧ step.cancelsRun = false) :
    script.executor.Quiet := by
  intro task input counts
  dsimp only [executor]
  split
  · exact ⟨rfl, rfl⟩
  next steps found =>
    rw [Script.step, Step.reply]
    cases at' : steps[min _ (steps.length - 1)]? with
    | none => exact ⟨rfl, rfl⟩
    | some step =>
      have mem := List.mem_of_getElem? at'
      obtain ⟨name, found⟩ : ∃ name, script.lookup name = some steps := by
        rw [steps?] at found
        rcases Option.or_eq_some_iff.1 found with found | ⟨-, found⟩ <;> exact ⟨_, found⟩
      exact quiet _ (mem_of_lookup_eq_some found) step mem

/-- Whether no product of a process is cancelled, and none of its calls will cancel anything. -/
def Process.Quiet : Process → Prop
  | .done _ => True
  | .call c => c.reply.cancelsScope = false ∧ c.reply.cancelsRun = false
  | .named _ body => body.Quiet
  | .seq _ inner => inner.Quiet
  | .par flag left right => flag = false ∧ left.Quiet ∧ right.Quiet

namespace World

/-- Whether exactly the same scopes are cancelled. -/
def SameScopes (w w' : World σ ω) : Prop := w'.scopes = w.scopes ∧ w'.cancelled = w.cancelled

theorem SameScopes.refl (w : World σ ω) : w.SameScopes w := ⟨rfl, rfl⟩

theorem SameScopes.trans {w w' w'' : World σ ω} (h : w.SameScopes w') (h' : w'.SameScopes w'') :
    w.SameScopes w'' :=
  ⟨h'.1.trans h.1, h'.2.trans h.2⟩

theorem SameScopes.stopped_eq {w w' : World σ ω} (h : w.SameScopes w') :
    w'.stopped = w.stopped := by
  rw [stopped, stopped, h.1, h.2]

/-- What leaves the scopes within a product as they were leaves those around it. -/
theorem SameScopes.leave {w w' : World σ ω} {flag : Bool} (h : (w.enter flag).SameScopes w') :
    w.SameScopes w'.leave :=
  ⟨congrArg List.tail h.1, h.2⟩

theorem SameScopes.flag_eq {w w' : World σ ω} {flag : Bool} (h : (w.enter flag).SameScopes w') :
    w'.flag = flag :=
  congrArg (List.headD · false) h.1

end World

open World (SameScopes)

namespace Machine

variable {m : Machine σ ω} {w w' : World σ ω}

theorem observe_scopes (m : Machine σ ω) (site : Site) (v : Val) (w : World σ ω) :
    (m.observe site v w).1.Quiet ∧ w.SameScopes (m.observe site v w).2 := by
  unfold observe
  split <;> exact ⟨trivial, rfl, rfl⟩

theorem finish_scopes {c : Call} (quiet : (Process.call c).Quiet) (w : World σ ω) :
    (m.finish c w).1.Quiet ∧ w.SameScopes (m.finish c w).2 := by
  unfold finish
  dsimp only
  rw [World.cancelBy_eq quiet.1 quiet.2]
  split
  · exact m.observe_scopes _ _ _
  · exact ⟨trivial, rfl, rfl⟩

theorem begin_scopes (quiet : m.executor.Quiet) (site : Site) (v : Val) (w : World σ ω) :
    (m.begin site v w).1.Quiet ∧ w.SameScopes (m.begin site v w).2 := by
  unfold begin
  split
  · exact ⟨trivial, rfl, rfl⟩
  · dsimp only
    split
    · exact finish_scopes (c := ⟨_, _, _, _, _⟩) (quiet _ _ _) _
    · exact ⟨quiet _ _ _, rfl, rfl⟩

theorem Leaves.scopes {site : Site} {p q : Process} (h : m.Leaves site p w q w') (quiet : p.Quiet) :
    q.Quiet ∧ w.SameScopes w' := by
  cases h with
  | ok => exact m.observe_scopes _ _ _
  | error => exact ⟨trivial, rfl, rfl⟩
  | wait => exact ⟨quiet, rfl, rfl⟩

theorem Joins.scopes {left right q : Process} (h : m.Joins w left right q w')
    {outside : World σ ω} (inside : (outside.enter false).SameScopes w) (quietLeft : left.Quiet)
    (quietRight : right.Quiet) : q.Quiet ∧ outside.SameScopes w' := by
  cases h with
  | ok | left | right => exact ⟨trivial, inside.leave⟩
  | dropLeft | dropRight =>
    refine ⟨trivial, SameScopes.leave (inside.trans ⟨?_, ?_⟩)⟩
    · exact Process.scopes_drop _ _
    · exact Process.cancelled_drop _ _
  | wait => exact ⟨⟨inside.flag_eq, quietLeft, quietRight⟩, inside.leave⟩

/-- Starting a plan leaves the scopes as they were. -/
theorem Starts.scopes (quiet : m.executor.Quiet) {plan : Plan} {v : Val} {p : Process}
    (h : m.Starts plan v w p w') : p.Quiet ∧ w.SameScopes w' := by
  induction h with
  | task => exact begin_scopes quiet _ _ _
  | named _ leaves ih =>
    obtain ⟨quiet, same⟩ := leaves.scopes ih.1
    exact ⟨quiet, ih.2.trans same⟩
  | seqOk _ _ ihInner ihOuter => exact ⟨ihOuter.1, ihInner.2.trans ihOuter.2⟩
  | seqError _ ih => exact ⟨trivial, ih.2⟩
  | seqWait _ _ ih => exact ih
  | parEnds _ _ ih => exact ⟨ih.1, ih.2.leave⟩
  | par _ _ _ joins ihLeft ihRight =>
    exact joins.scopes (ihLeft.2.trans ihRight.2) ihLeft.1 ihRight.1

/-- Resuming a quiet process leaves the scopes as they were. -/
theorem Resumes.scopes (quiet : m.executor.Quiet)
    {settle : Call → World σ ω → Process × World σ ω}
    (settled : ∀ {c} w, (Process.call c).Quiet → (settle c w).1.Quiet ∧ w.SameScopes (settle c w).2)
    {p p' : Process} (h : m.Resumes settle p w p' w') (quietly : p.Quiet) :
    p'.Quiet ∧ w.SameScopes w' := by
  induction h with
  | done => exact ⟨trivial, .refl _⟩
  | call => exact settled _ quietly
  | named _ leaves ih =>
    obtain ⟨quiet, same⟩ := leaves.scopes (ih quietly).1
    exact ⟨quiet, (ih quietly).2.trans same⟩
  | seqOk _ starts ih =>
    obtain ⟨quiet, same⟩ := starts.scopes quiet
    exact ⟨quiet, (ih quietly).2.trans same⟩
  | seqError _ ih => exact ⟨trivial, (ih quietly).2⟩
  | seqWait _ _ ih => exact ih quietly
  | parEnds _ _ ih =>
    obtain ⟨rfl, quietLeft, -⟩ := quietly
    refine ⟨(ih quietLeft).1, SameScopes.leave ((ih quietLeft).2.trans ⟨?_, ?_⟩)⟩
    · exact Process.scopes_drop _ _
    · exact Process.cancelled_drop _ _
  | par _ _ _ joins ihLeft ihRight =>
    obtain ⟨rfl, quietLeft, quietRight⟩ := quietly
    have left := ihLeft quietLeft
    have right := ihRight quietRight
    exact joins.scopes (left.2.trans right.2) left.1 right.1

theorem settleDue_scopes {c : Call} (w : World σ ω) (quiet : (Process.call c).Quiet) :
    (m.settleDue c w).1.Quiet ∧ w.SameScopes (m.settleDue c w).2 := by
  unfold settleDue
  split
  · exact finish_scopes quiet w
  · exact ⟨quiet, .refl _⟩

/-- Where nothing is cancelled the calls that are due are over. -/
theorem Resumes.due_of_quiet (quiet : m.executor.Quiet) {p p' : Process}
    (h : m.Resumes m.settle p w p' w') (quietly : p.Quiet) (going : w.stopped = false) :
    m.Resumes m.settleDue p w p' w' := by
  have due : ∀ {p p' w w'}, m.Resumes m.settleDue p w p' w' → p.Quiet → w.stopped = false →
      w'.stopped = false :=
    fun h quietly going ↦ (h.scopes quiet settleDue_scopes quietly).2.stopped_eq.trans going
  induction h with
  | done => exact .done
  | @call c w =>
    rw [settle, going, if_neg Bool.false_ne_true]
    exact .call
  | named _ leaves ih => exact .named (ih quietly going) leaves
  | seqOk _ starts ih => exact .seqOk (ih quietly going) starts
  | seqError _ ih => exact .seqError (ih quietly going)
  | seqWait _ pending ih => exact .seqWait (ih quietly going) pending
  | parEnds _ ends ih =>
    obtain ⟨rfl, quietLeft, -⟩ := quietly
    exact .parEnds (ih quietLeft (by simpa using going)) ends
  | par _ notLeft _ joins ihLeft ihRight =>
    obtain ⟨rfl, quietLeft, quietRight⟩ := quietly
    have inside : (World.enter _ false).stopped = false := (World.stopped_enter _).trans going
    have left := ihLeft quietLeft inside
    exact .par left notLeft (ihRight quietRight (due left quietLeft inside)) joins

/-- Where nothing is cancelled nothing is given up. -/
theorem Resumes.eq_of_quiet {p p' : Process} (h : m.Resumes settleStopped p w p' w')
    (settled : m.Settled p) (quiet : p.Quiet) (going : w.stopped = false) : p' = p ∧ w' = w := by
  induction h with
  | done => exact ⟨rfl, rfl⟩
  | call => simp [settleStopped, going]
  | named _ leaves ih =>
    obtain ⟨rfl, rfl⟩ := ih settled.1 quiet going
    cases leaves with
    | wait => exact ⟨rfl, rfl⟩
    | ok | error => cases settled.2
  | seqOk _ _ ih | seqError _ ih =>
    obtain ⟨rfl, -⟩ := ih settled.1 quiet going
    cases settled.2
  | seqWait _ _ ih =>
    obtain ⟨rfl, rfl⟩ := ih settled.1 quiet going
    exact ⟨rfl, rfl⟩
  | parEnds _ ends ih =>
    obtain ⟨rfl, quietLeft, -⟩ := quiet
    obtain ⟨settledLeft, -, -, notLeft, -⟩ := settled
    obtain ⟨rfl, -⟩ := ih settledLeft quietLeft (by simpa using going)
    cases ends.symm.trans notLeft
  | par _ _ _ joins ihLeft ihRight =>
    obtain ⟨rfl, quietLeft, quietRight⟩ := quiet
    obtain ⟨settledLeft, settledRight, pending, notLeft, notRight⟩ := settled
    obtain ⟨rfl, rfl⟩ := ihLeft settledLeft quietLeft (by simpa using going)
    obtain ⟨rfl, rfl⟩ := ihRight settledRight quietRight (by simpa using going)
    cases joins with
    | ok | left | right => cases pending
    | dropLeft _ policy => simp [ends, policy] at notRight
    | dropRight _ policy => simp [ends, policy] at notLeft
    | wait => exact ⟨rfl, rfl⟩

/-- What holds after the start of a run in which nothing is cancelled, and is kept by the ends of
calls, holds when the run ends, and still nothing is cancelled. -/
theorem run_spec_of_quiet (quiet : m.executor.Quiet) {I : Process → World σ ω → Prop} {plan : Plan}
    {input : Val} {s : σ} {o : ω} {clock : Nat}
    (start : ∀ {p w}, m.Starts plan input (initial s o clock none) p w → I p w)
    (settle : ∀ {p w t p' w'}, I p w → p.Quiet → w.stopped = false → p.nextWake = some t →
      m.Resumes m.settleDue p { w with clock := t } p' w' → I p' w') :
    I (.done (m.run plan input s o clock none).1) (m.run plan input s o clock none).2 ∧
      (m.run plan input s o clock none).2.stopped = false := by
  have ends : I (.done (m.run plan input s o clock none).1) (m.run plan input s o clock none).2 ∧
      m.Settled (.done (m.run plan input s o clock none).1) ∧
      (Process.done (m.run plan input s o clock none).1).Quiet ∧
      (m.run plan input s o clock none).2.stopped = false := by
    refine m.run_spec (I := fun p w ↦ I p w ∧ m.Settled p ∧ p.Quiet ∧ w.stopped = false) ?_ ?_ ?_ ?_
    · intro p w starts
      obtain ⟨quietly, same⟩ := starts.scopes quiet
      exact ⟨start starts, starts.settled, quietly, same.stopped_eq⟩
    · rintro p w p' w' ⟨h, settled, quietly, going⟩ resumes
      obtain ⟨rfl, rfl⟩ := resumes.eq_of_quiet settled quietly going
      exact ⟨h, settled, quietly, going⟩
    · rintro p w t p' w' ⟨h, settled, quietly, going⟩ wake resumes
      have resumes := resumes.due_of_quiet quiet quietly going
      obtain ⟨quietly', same⟩ := resumes.scopes quiet settleDue_scopes quietly
      exact ⟨settle h quietly going wake resumes, resumes.settled settled_settleDue, quietly',
        same.stopped_eq.trans going⟩
    · rintro p w t c - - ⟨⟩
  exact ⟨ends.1, ends.2.2.2⟩

/-! ## Plain machines -/

/-- A machine that nothing watches and whose executor cancels nothing. -/
structure Plain {σ : Type} (m : Machine σ Unit) : Prop where
  blind : m.observer = .blind
  quiet : m.executor.Quiet

end Machine

/-- How a call ends if nothing is cancelled. -/
def Call.result (c : Call) : Except RunError Val :=
  c.reply.result.mapError (.task c.site.name c.input)

namespace Machine.Plain

variable {m : Machine σ Unit} {w w' : World σ Unit}

theorem observe_eq (plain : m.Plain) (site : Site) (v : Val) (w : World σ Unit) :
    m.observe site v w = (.done (.ok v), w) :=
  observe_of_blind plain.blind site v w

/-- A call that is over closes its entry and does nothing else. -/
theorem finish_eq (plain : m.Plain) {c : Call} (quiet : (Process.call c).Quiet)
    (going : w.stopped = false) :
    m.finish c w = (.done c.result, w.close c.ticket c.outcome) := by
  have going' : (w.close c.ticket c.outcome).stopped = false := going
  rw [finish, World.cancelBy_eq quiet.1 quiet.2, Call.result]
  cases c.reply.result with
  | ok v => exact plain.observe_eq _ _ _
  | error f =>
    simp only [Call.blame, going', Bool.false_eq_true, and_false, if_false]
    rfl

/-- A functor name lets through whatever its body has come to. -/
theorem eq_of_leaves (plain : m.Plain) {site : Site} {p q : Process} (h : m.Leaves site p w q w') :
    w' = w ∧ (q = p ∨ p.isDone = false ∧ q = .named site p) := by
  cases h with
  | ok =>
    rw [plain.observe_eq]
    exact ⟨rfl, .inl rfl⟩
  | error => exact ⟨rfl, .inl rfl⟩
  | wait pending => exact ⟨rfl, .inr ⟨pending, rfl⟩⟩

end Machine.Plain

end Taskflow
