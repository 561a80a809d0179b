import Taskflow.Proofs.Run.Steps

/-!
# Chains of stages

Stages can be composed in any grouping.  `Plan.regroup` groups every chain such that its first stage
stands alone, `(h ∘ g) ∘ f`, so plans that differ in the grouping of their chains are regrouped
alike.  A run stands at the same stage of a chain however it is grouped: at every instant the
process is the regrouped one and the world is the same (`Machine.run_regroup`), whoever observes it.
-/

namespace Taskflow

/-! ## Grouping -/

namespace Plan

/-- `inner` first, then `outer`, where the first stage of `inner` stands alone. -/
def after (outer : Plan) : Plan → Plan
  | .seq later first => .seq (outer.after later) first
  | inner => .seq outer inner

theorem after_assoc (h g f : Plan) : (h.after g).after f = h.after (g.after f) := by
  induction f with
  | seq later first ih => simp [after, ih]
  | _ => rfl

/-- A plan in which the first stage of every chain stands alone. -/
def regroup : Plan → Plan
  | .task site => .task site
  | .named site body => .named site body.regroup
  | .seq outer inner => outer.regroup.after inner.regroup
  | .par left right => .par left.regroup right.regroup

def isSeq : Plan → Bool
  | .seq .. => true
  | _ => false

end Plan

namespace Process

/-- `inner` goes on, and `outer` comes after it. -/
def before (outer : Plan) : Process → Process
  | .seq later first => .seq (outer.after later) first
  | inner => .seq outer inner

/-- A process in which the first stage of every chain stands alone. -/
def regroup : Process → Process
  | .done r => .done r
  | .call c => .call c
  | .named site body => .named site body.regroup
  | .seq outer inner => before outer.regroup inner.regroup
  | .par flag left right => .par flag left.regroup right.regroup

def isSeq : Process → Bool
  | .seq .. => true
  | _ => false

theorem before_of_not_isSeq (outer : Plan) {inner : Process} (single : inner.isSeq = false) :
    before outer inner = .seq outer inner := by
  cases inner with
  | seq => cases single
  | _ => rfl

theorem isSeq_of_isDone {p : Process} (done : p.isDone = true) : p.isSeq = false := by
  rw [eq_done_of_isDone done]
  rfl

@[simp] theorem isDone_before (outer : Plan) (inner : Process) :
    (before outer inner).isDone = false := by
  cases inner <;> rfl

@[simp] theorem nextWake_before (outer : Plan) (inner : Process) :
    (before outer inner).nextWake = inner.nextWake := by
  cases inner <;> rfl

@[simp] theorem drop_before {σ ω : Type} (outer : Plan) (inner : Process) (w : World σ ω) :
    (before outer inner).drop w = inner.drop w := by
  cases inner <;> rfl

@[simp] theorem isDone_regroup (p : Process) : p.regroup.isDone = p.isDone := by
  cases p with
  | seq outer inner => exact isDone_before outer.regroup inner.regroup
  | _ => rfl

@[simp] theorem nextWake_regroup (p : Process) : p.regroup.nextWake = p.nextWake := by
  induction p <;> simp_all [regroup, nextWake]

@[simp] theorem drop_regroup {σ ω : Type} (p : Process) (w : World σ ω) :
    p.regroup.drop w = p.drop w := by
  induction p generalizing w <;> simp_all [regroup, drop]

/-- Whether a process is over, or a call that goes on. -/
def Single (p : Process) : Prop := p.isDone = true ∨ ∃ c, p = .call c

theorem Single.isSeq {p : Process} (single : p.Single) : p.isSeq = false := by
  rcases single with done | ⟨c, rfl⟩
  · exact isSeq_of_isDone done
  · rfl

theorem Single.regroup_eq {p : Process} (single : p.Single) : p.regroup = p := by
  rcases single with done | ⟨c, rfl⟩
  · rw [eq_done_of_isDone done]
    rfl
  · rfl

end Process

namespace Machine

variable {σ ω : Type} {m : Machine σ ω} {w w' : World σ ω}

/-! ## What is not a chain does not become one -/

theorem single_begin (site : Site) (v : Val) (w : World σ ω) : (m.begin site v w).1.Single := by
  unfold begin
  split
  · exact .inl rfl
  · dsimp only
    split
    · exact .inl (isDone_finish _ _)
    · exact .inr ⟨_, rfl⟩

theorem single_settleStopped (c : Call) (w : World σ ω) : (settleStopped c w).1.Single := by
  unfold settleStopped
  split
  · exact .inl rfl
  · exact .inr ⟨_, rfl⟩

theorem single_settle (c : Call) (w : World σ ω) : (m.settle c w).1.Single := by
  unfold settle
  split
  · exact single_settleStopped c w
  · unfold settleDue
    split
    · exact .inl (isDone_finish _ _)
    · exact .inr ⟨_, rfl⟩

theorem Leaves.isSeq {site : Site} {p q : Process} (h : m.Leaves site p w q w') :
    q.isSeq = false := by
  cases h with
  | ok => exact Process.isSeq_of_isDone (isDone_observe _ _ _)
  | error | wait => rfl

theorem Joins.isSeq {left right q : Process} (h : m.Joins w left right q w') :
    q.isSeq = false := by
  cases h <;> rfl

theorem Starts.isSeq {plan : Plan} {v : Val} {p : Process} (h : m.Starts plan v w p w')
    (single : plan.isSeq = false) : p.isSeq = false := by
  cases h with
  | task => exact (single_begin _ _ _).isSeq
  | named _ leaves => exact leaves.isSeq
  | seqOk | seqError | seqWait => cases single
  | parEnds _ ends =>
    obtain ⟨e, rfl, -⟩ := m.ends_iff.1 ends
    rfl
  | par _ _ _ joins => exact joins.isSeq

theorem Resumes.isSeq {settle : Call → World σ ω → Process × World σ ω}
    (settles : ∀ c w, (settle c w).1.Single) {p p' : Process} (h : m.Resumes settle p w p' w')
    (single : p.isSeq = false) : p'.isSeq = false := by
  cases h with
  | done => rfl
  | call => exact (settles _ _).isSeq
  | named _ leaves => exact leaves.isSeq
  | seqOk | seqError | seqWait => cases single
  | parEnds _ ends =>
    obtain ⟨e, rfl, -⟩ := m.ends_iff.1 ends
    rfl
  | par _ _ _ joins => exact joins.isSeq

/-! ## Stages after a chain -/

section

variable {outer inner : Plan} {v x : Val} {p : Process} {w₁ : World σ ω}

theorem Starts.after_ok (first : m.Starts inner v w (.done (.ok x)) w₁)
    (second : m.Starts outer x w₁ p w') : m.Starts (outer.after inner) v w p w' := by
  induction inner generalizing v w p w₁ w' x with
  | seq later early ihLater =>
    cases first with
    | seqOk early later => exact .seqOk early (ihLater later second)
  | _ => exact .seqOk first second

theorem Starts.after_error {e : RunError} (first : m.Starts inner v w (.done (.error e)) w') :
    m.Starts (outer.after inner) v w (.done (.error e)) w' := by
  induction inner generalizing v w w' with
  | seq later early ihLater =>
    cases first with
    | seqOk early later => exact .seqOk early (ihLater later)
    | seqError early => exact .seqError early
  | _ => exact .seqError first

theorem Starts.after_wait (first : m.Starts inner v w p w') (pending : p.isDone = false) :
    m.Starts (outer.after inner) v w (.before outer p) w' := by
  induction inner generalizing v w p w' with
  | seq later early ihLater =>
    cases first with
    | seqOk early later => exact .seqOk early (ihLater later pending)
    | seqError => cases pending
    | seqWait early waits => exact .seqWait early waits
  | _ =>
    rw [Process.before_of_not_isSeq outer (first.isSeq rfl)]
    exact .seqWait first pending

variable {settle : Call → World σ ω → Process × World σ ω} {q : Process}

theorem Resumes.before_ok (first : m.Resumes settle p w (.done (.ok x)) w₁)
    (second : m.Starts outer x w₁ q w') : m.Resumes settle (.before outer p) w q w' := by
  cases p with
  | seq later early =>
    cases first with
    | seqOk early later => exact .seqOk early (later.after_ok second)
  | _ => exact .seqOk first second

theorem Resumes.before_error {e : RunError} (first : m.Resumes settle p w (.done (.error e)) w') :
    m.Resumes settle (.before outer p) w (.done (.error e)) w' := by
  cases p with
  | seq later early =>
    cases first with
    | seqOk early later => exact .seqOk early later.after_error
    | seqError early => exact .seqError early
  | _ => exact .seqError first

theorem Resumes.before_wait (settles : ∀ c w, (settle c w).1.Single)
    (first : m.Resumes settle p w q w') (pending : q.isDone = false) :
    m.Resumes settle (.before outer p) w (.before outer q) w' := by
  cases p with
  | seq later early =>
    cases first with
    | seqOk early later => exact .seqOk early (later.after_wait pending)
    | seqError => cases pending
    | seqWait early waits => exact .seqWait early waits
  | _ =>
    rw [Process.before_of_not_isSeq outer (first.isSeq settles rfl)]
    exact .seqWait first pending

end

/-! ## Runs -/

@[simp] theorem ends_regroup (p : Process) : m.ends p.regroup = m.ends p := by
  cases p with
  | seq outer inner =>
    rw [Bool.eq_iff_iff, ends_iff, ends_iff]
    constructor
    · rintro ⟨e, done, -⟩
      have := Process.isDone_regroup (.seq outer inner)
      rw [done] at this
      cases this
    · rintro ⟨e, ⟨⟩, -⟩
  | _ => rfl

theorem Leaves.regroup {site : Site} {p q : Process} (h : m.Leaves site p w q w') :
    m.Leaves site p.regroup w q.regroup w' := by
  cases h with
  | @ok v w =>
    rw [Process.Single.regroup_eq (.inl (isDone_observe site v w))]
    exact .ok
  | error => exact .error
  | wait pending => exact .wait ((Process.isDone_regroup _).trans pending)

theorem Joins.regroup {left right q : Process} (h : m.Joins w left right q w') :
    m.Joins w left.regroup right.regroup q.regroup w' := by
  cases h with
  | ok => exact .ok
  | left => exact .left
  | right => exact .right
  | dropLeft pending policy =>
    rw [← Process.drop_regroup]
    exact .dropLeft ((Process.isDone_regroup _).trans pending) policy
  | dropRight pending policy =>
    rw [← Process.drop_regroup]
    exact .dropRight ((Process.isDone_regroup _).trans pending) policy
  | wait pending notLeft notRight =>
    refine .wait ?_ ((ends_regroup _).trans notLeft) ((ends_regroup _).trans notRight)
    rwa [Process.isDone_regroup, Process.isDone_regroup]

/-- A plan that is regrouped gets as far as the plan, through the same worlds. -/
theorem Starts.regroup {plan : Plan} {v : Val} {p : Process} (h : m.Starts plan v w p w') :
    m.Starts plan.regroup v w p.regroup w' := by
  induction h with
  | @task site v w =>
    rw [(single_begin site v w).regroup_eq]
    exact .task
  | named _ leaves ih => exact .named ih leaves.regroup
  | seqOk _ _ ihInner ihOuter => exact ihInner.after_ok ihOuter
  | seqError _ ih => exact ih.after_error
  | seqWait _ pending ih => exact ih.after_wait ((Process.isDone_regroup _).trans pending)
  | parEnds _ ends ih => exact .parEnds ih ((ends_regroup _).trans ends)
  | par _ notLeft _ joins ihLeft ihRight =>
    exact .par ihLeft ((ends_regroup _).trans notLeft) ihRight joins.regroup

/-- So does a process that is regrouped. -/
theorem Resumes.regroup {settle : Call → World σ ω → Process × World σ ω}
    (settles : ∀ c w, (settle c w).1.Single) {p p' : Process} (h : m.Resumes settle p w p' w') :
    m.Resumes settle p.regroup w p'.regroup w' := by
  induction h with
  | done => exact .done
  | @call c w =>
    rw [(settles c w).regroup_eq]
    exact .call
  | named _ leaves ih => exact .named ih leaves.regroup
  | seqOk _ starts ih => exact ih.before_ok starts.regroup
  | seqError _ ih => exact ih.before_error
  | seqWait _ pending ih =>
    exact ih.before_wait settles ((Process.isDone_regroup _).trans pending)
  | parEnds _ ends ih =>
    rw [← Process.drop_regroup]
    exact .parEnds ih ((ends_regroup _).trans ends)
  | par _ notLeft _ joins ihLeft ihRight =>
    exact .par ihLeft ((ends_regroup _).trans notLeft) ihRight joins.regroup

/-- A run with its chains regrouped is the same run. -/
theorem run_regroup (plan : Plan) (input : Val) (s : σ) (o : ω) (clock : Nat)
    (cancelAfter : Option Nat) :
    m.run plan.regroup input s o clock cancelAfter = m.run plan input s o clock cancelAfter :=
  m.run_map (fun _ ↦ rfl) Process.nextWake_regroup
    (fun sweeps ↦ sweeps.regroup single_settleStopped) (fun settles ↦ settles.regroup single_settle)
    Starts.regroup input s o clock cancelAfter

end Machine

end Taskflow
