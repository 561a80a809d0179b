import Taskflow.Proofs.Grammar.Programs
import Taskflow.Proofs.Program.Expansion
import Taskflow.Proofs.Run.Ledger
import Taskflow.Proofs.Run.Resolution
import Taskflow.Run.Script

/-!
# Functors are shorthands

Writing out what the functor names of a program stand for makes an expression without functors
(`Program.Expands`).  Its plan is the plan of the program with the functor names taken out
(`Plan.erase`), and unless an observer is told of them these names are all that the two runs differ
in: every instant leads both to the same world and to processes that differ in functor names alone
(`Starts.erase`, `Resumes.erase`).  So the runs end in the same way and leave the same world behind
(`run_of_expands`).
-/

namespace Taskflow

/-! ## Taking the names out of a plan -/

/-- A plan without its functor names. -/
def Plan.erase : Plan → Plan
  | .task site => .task site
  | .named _ body => body.erase
  | .seq outer inner => .seq outer.erase inner.erase
  | .par left right => .par left.erase right.erase

/-- The plan of a node that is written out is the plan of the node without its functor names. -/
theorem Program.Expands.ofNode_eq_erase {p : Program} {n n' : Node} {plan : Plan}
    (h : p.Expands n n') (resolves : p.Resolves n plan) : .ofNode [] n' = plan.erase := by
  induction h generalizing plan with
  | task none =>
    cases resolves with
    | task => rfl
    | named some _ => cases none.symm.trans some
  | named some _ ih =>
    cases resolves with
    | task none => cases none.symm.trans some
    | named some' resolves =>
      obtain rfl := Option.some.inj (some.symm.trans some')
      rw [Plan.erase]
      exact ih resolves
  | composition _ _ ihOuter ihInner =>
    cases resolves with
    | composition outer inner => rw [Plan.ofNode, Plan.erase, ihOuter outer, ihInner inner]
  | product _ _ ihLeft ihRight =>
    cases resolves with
    | product left right => rw [Plan.ofNode, Plan.erase, ihLeft left, ihRight right]
  | functor _ ih =>
    cases resolves with
    | functor body => exact ih body

/-! ## Taking the names out of a run -/

namespace Process

/-- A process without its functor names. -/
def erase : Process → Process
  | .done r => .done r
  | .call c => .call c
  | .named _ body => body.erase
  | .seq outer inner => .seq outer.erase inner.erase
  | .par flag left right => .par flag left.erase right.erase

/-- Functor names have no calls of their own. -/
@[simp] theorem calls_erase (p : Process) : p.erase.calls = p.calls := by
  induction p <;> simp_all [erase, calls]

/-- Functor names wait for nothing themselves. -/
@[simp] theorem nextWake_erase (p : Process) : p.erase.nextWake = p.nextWake := by
  induction p <;> simp_all [erase, nextWake]

@[simp] theorem drop_erase {σ ω : Type} (p : Process) (w : World σ ω) :
    p.erase.drop w = p.drop w := by
  induction p generalizing w <;> simp_all [erase, drop]

end Process

namespace Machine

variable {σ : Type} {m : Machine σ Unit} {w w' : World σ Unit}

/-- A process that has got as far as it can is not done for want of names. -/
theorem Settled.isDone_erase {p : Process} (settled : m.Settled p) : p.erase.isDone = p.isDone := by
  induction p with
  | named site body ih => exact (ih settled.1).trans settled.2
  | _ => rfl

theorem Settled.ends_erase {p : Process} (settled : m.Settled p) : m.ends p.erase = m.ends p := by
  cases p with
  | named site body =>
    have pending : body.erase.isDone = false := (settled.1.isDone_erase).trans settled.2
    rw [Bool.eq_iff_iff, ends_iff, ends_iff]
    constructor
    · rintro ⟨e, done, -⟩
      rw [show body.erase = _ from done] at pending
      cases pending
    · rintro ⟨e, ⟨⟩, -⟩
  | _ => rfl

theorem erase_finish (blind : m.observer = .blind) (c : Call) (w : World σ Unit) :
    (m.finish c w).1.erase = (m.finish c w).1 := by
  unfold finish
  dsimp only
  split
  · rw [observe_of_blind blind]
    rfl
  · rfl

theorem erase_begin (blind : m.observer = .blind) (site : Site) (v : Val) (w : World σ Unit) :
    (m.begin site v w).1.erase = (m.begin site v w).1 := by
  unfold begin
  split
  · rfl
  · dsimp only
    split
    · exact erase_finish blind _ _
    · rfl

/-- A functor name lets through what its body has come to. -/
theorem Leaves.erase (blind : m.observer = .blind) {site : Site} {p q : Process}
    (h : m.Leaves site p w q w') : q.erase = p.erase ∧ w' = w := by
  cases h with
  | ok =>
    rw [observe_of_blind blind]
    exact ⟨rfl, rfl⟩
  | error | wait => exact ⟨rfl, rfl⟩

theorem Joins.erase {left right q : Process} (h : m.Joins w left right q w')
    (settledLeft : m.Settled left) (settledRight : m.Settled right) :
    m.Joins w left.erase right.erase q.erase w' := by
  cases h with
  | ok => exact .ok
  | left => exact .left
  | right => exact .right
  | dropLeft pending policy =>
    rw [← Process.drop_erase]
    exact .dropLeft (settledLeft.isDone_erase.trans pending) policy
  | dropRight pending policy =>
    rw [← Process.drop_erase]
    exact .dropRight (settledRight.isDone_erase.trans pending) policy
  | wait pending notLeft notRight =>
    refine .wait ?_ (settledLeft.ends_erase.trans notLeft) (settledRight.ends_erase.trans notRight)
    rwa [settledLeft.isDone_erase, settledRight.isDone_erase]

/-- A plan without its functor names gets as far as the plan, through the same worlds. -/
theorem Starts.erase (blind : m.observer = .blind) {plan : Plan} {v : Val} {p : Process}
    (h : m.Starts plan v w p w') : m.Starts plan.erase v w p.erase w' := by
  induction h with
  | task =>
    rw [erase_begin blind]
    exact .task
  | named _ leaves ih =>
    obtain ⟨same, rfl⟩ := leaves.erase blind
    rw [same]
    exact ih
  | seqOk _ _ ihInner ihOuter => exact .seqOk ihInner ihOuter
  | seqError _ ih => exact .seqError ih
  | seqWait starts pending ih => exact .seqWait ih (starts.settled.isDone_erase.trans pending)
  | parEnds starts ends ih => exact .parEnds ih (starts.settled.ends_erase.trans ends)
  | par left notLeft right joins ihLeft ihRight =>
    exact .par ihLeft (left.settled.ends_erase.trans notLeft) ihRight
      (joins.erase left.settled right.settled)

/-- So does a process without its functor names. -/
theorem Resumes.erase (blind : m.observer = .blind)
    {settle : Call → World σ Unit → Process × World σ Unit}
    (settled : ∀ c w, m.Settled (settle c w).1)
    (plain : ∀ c w, (settle c w).1.erase = (settle c w).1) {p p' : Process}
    (h : m.Resumes settle p w p' w') : m.Resumes settle p.erase w p'.erase w' := by
  induction h with
  | done => exact .done
  | call =>
    rw [plain]
    exact .call
  | named _ leaves ih =>
    obtain ⟨same, rfl⟩ := leaves.erase blind
    rw [same]
    exact ih
  | seqOk _ starts ih => exact .seqOk ih (starts.erase blind)
  | seqError _ ih => exact .seqError ih
  | seqWait resumes pending ih =>
    exact .seqWait ih ((resumes.settled settled).isDone_erase.trans pending)
  | parEnds resumes ends ih =>
    rw [← Process.drop_erase]
    exact .parEnds ih ((resumes.settled settled).ends_erase.trans ends)
  | par left notLeft right joins ihLeft ihRight =>
    exact .par ihLeft ((left.settled settled).ends_erase.trans notLeft) ihRight
      (joins.erase (left.settled settled) (right.settled settled))

theorem erase_settleStopped (c : Call) (w : World σ Unit) :
    (settleStopped c w).1.erase = (settleStopped c w).1 := by
  unfold settleStopped
  split <;> rfl

theorem erase_settle (blind : m.observer = .blind) (c : Call) (w : World σ Unit) :
    (m.settle c w).1.erase = (m.settle c w).1 := by
  unfold settle
  split
  · exact erase_settleStopped c w
  · unfold settleDue
    split
    · exact erase_finish blind c w
    · rfl

/-- A run without functor names is the same run. -/
theorem run_erase (blind : m.observer = .blind) (plan : Plan) (input : Val) (s : σ) (clock : Nat)
    (cancelAfter : Option Nat) :
    m.run plan.erase input s () clock cancelAfter = m.run plan input s () clock cancelAfter :=
  m.run_map (fun _ ↦ rfl) Process.nextWake_erase
    (fun sweeps ↦ sweeps.erase blind settled_settleStopped erase_settleStopped)
    (fun settles ↦ settles.erase blind settled_settle (erase_settle blind))
    (fun starts ↦ starts.erase blind) input s () clock cancelAfter

end Machine

/-- A run of a parsed program is the run of the one expression in which all functor names are
written out: it makes the same calls at the same instants, which end in the same way, and it leaves
the same value or error, the same clock and the same cancellations behind. -/
theorem run_of_expands {p : Program} {text : String} (parsed : Program.parse text = .ok p) :
    ∃ root, p.Expands p.root root ∧ (∀ root', p.Expands p.root root' → root' = root) ∧
      (∀ name ∈ root.references, p.isFunctor name = false) ∧
      ∀ {σ : Type} (e : Executor σ) (policy : Policy) (input : Val) (s : σ) (clock : Nat)
        (cancelAfter : Option Nat),
        let m : Machine σ Unit := ⟨e, .blind, policy⟩
        let inlined : Program := { p with functors := [], root }
        m.run inlined.plan input s () clock cancelAfter =
          m.run p.plan input s () clock cancelAfter := by
  have wf := Program.wellFormed_of_parse parsed
  obtain ⟨root, expands⟩ := (wf.grounded p.root_mem_nodes).expands
  refine ⟨root, expands, fun root' expands' ↦ expands'.unique expands, ?_, ?_⟩
  · intro name mem
    rw [wf.isFunctor_eq, expands.functorBody_eq_none name mem]
    rfl
  · intro σ e policy input s clock cancelAfter m inlined
    have plan : inlined.plan = p.plan.erase := expands.ofNode_eq_erase wf.resolves_root
    rw [plan]
    exact Machine.run_erase rfl p.plan input s clock cancelAfter

/-- A functor that refers to another one, a task that takes less time when it is called again, and
one that cancels the run. -/
theorem run_of_nested_functors :
    let script : Script := [("a", [⟨10, false, false, .echo⟩, ⟨5, false, false, .echo⟩]),
      ("b", [⟨8, false, true, .trail⟩])]
    let m : Machine (Table Nat) Unit := ⟨script.executor.within 50, .blind, .waitAll⟩
    ∃ p root, Program.parse "f = a\ng = f ∘ f\ng × (b ∘ f)" = .ok p ∧ p.Expands p.root root ∧
      (let inlined : Program := { p with functors := [], root }
       m.run inlined.plan .unit [] () 0 none = m.run p.plan .unit [] () 0 none) ∧
      (m.run p.plan .unit [] () 0 none).2.calls = [⟨"a", .unit, 0, some (10, .ok)⟩,
        ⟨"a", .unit, 0, some (5, .ok)⟩, ⟨"b", .unit, 5, some (13, .ok)⟩,
        ⟨"a", .unit, 10, some (13, .dropped)⟩] := by
  intro script m
  have parsed := Except.eq_ok_get (x := Program.parse "f = a\ng = f ∘ f\ng × (b ∘ f)") (by decide)
  obtain ⟨root, expands, -, -, same⟩ := run_of_expands parsed
  refine ⟨_, root, parsed, expands, same _ _ _ _ _ _, ?_⟩
  decide +kernel

end Taskflow
