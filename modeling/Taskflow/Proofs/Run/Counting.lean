import Taskflow.Proofs.Run.Ledger

/-!
# How much a run begins

Every node of a plan is evaluated at most once in a run.  The evaluations that a run begins are
counted beside it, each function along the one whose evaluations it counts: `evaluated` along
`Machine.start`, `evaluatedBy` along `Machine.resume` and `evaluatedFrom` along `Machine.proceed`.
What has begun and what is yet to begin (`Process.ahead`) are at each of these never more than what
was yet to begin before, so the evaluations of a run are bounded by the size of its plan
(`evaluatedIn_le`), and its calls by the tasks in it (`length_calls_run_le`).
-/

namespace Taskflow

/-- How many nodes a plan has, a functor name and its body apart. -/
def Plan.size : Plan → Nat
  | .task _ => 1
  | .named _ body => body.size + 1
  | .seq outer inner => outer.size + inner.size + 1
  | .par left right => left.size + right.size + 1

/-- What is yet to begin in a process, by a measure of plans. -/
def Process.ahead (weigh : Plan → Nat) : Process → Nat
  | .done _ => 0
  | .call _ => 0
  | .named _ body => body.ahead weigh
  | .seq outer inner => weigh outer + inner.ahead weigh
  | .par _ left right => left.ahead weigh + right.ahead weigh

namespace Machine

variable {σ ω : Type} (m : Machine σ ω)

/-! ## Counting evaluations -/

/-- How many evaluations begin until a plan that is started is done or waits: one for each node that
is reached. -/
def evaluated : Plan → Val → World σ ω → Nat
  | .task _, _, _ => 1
  | .named _ body, v, w => evaluated body v w + 1
  | .seq outer inner, v, w =>
    match m.start inner v w with
    | (.done (.ok x), w') => evaluated inner v w + evaluated outer x w' + 1
    | _ => evaluated inner v w + 1
  | .par left right, v, w =>
    let l := m.start left v (w.enter false)
    if m.ends l.1 then evaluated left v (w.enter false) + 1
    else evaluated left v (w.enter false) + evaluated right v l.2 + 1

/-- How many evaluations begin until a process whose calls are settled is done or waits again. -/
def evaluatedBy (settle : Call → World σ ω → Process × World σ ω) : Process → World σ ω → Nat
  | .done _, _ => 0
  | .call _, _ => 0
  | .named _ body, w => evaluatedBy settle body w
  | .seq outer inner, w =>
    match m.resume settle inner w with
    | (.done (.ok x), w') => evaluatedBy settle inner w + m.evaluated outer x w'
    | _ => evaluatedBy settle inner w
  | .par flag left right, w =>
    let l := m.resume settle left (w.enter flag)
    if m.ends l.1 then evaluatedBy settle left (w.enter flag)
    else evaluatedBy settle left (w.enter flag) + evaluatedBy settle right l.2

/-- How many evaluations begin at an instant. -/
def evaluatedAt (p : Process) (w : World σ ω) : Nat :=
  let r := m.resume m.settle p w
  m.evaluatedBy m.settle p w + m.evaluatedBy settleStopped r.1 r.2

/-- How many evaluations begin from now on to the end of a run. -/
def evaluatedFrom (cancelAt : Option Nat) (p : Process) (w : World σ ω) : Nat :=
  match h : p.nextWake with
  | none => 0
  | some t =>
    have := fun c ↦ m.remaining_tick_lt (w := { w with clock := t }) c (Process.due_nextWake h)
    match cancelAt with
    | none =>
      let r := m.tick p { w with clock := t }
      m.evaluatedAt p { w with clock := t } + evaluatedFrom none r.1 r.2
    | some c =>
      if c ≤ t then
        let w := { w with clock := c, cancelled := true }
        have := m.remaining_sweep_lt c p w
        let r := m.sweep p w
        m.evaluatedBy settleStopped p w + evaluatedFrom none r.1 r.2
      else
        let r := m.tick p { w with clock := t }
        m.evaluatedAt p { w with clock := t } + evaluatedFrom (some c) r.1 r.2
termination_by remaining cancelAt p
decreasing_by
  · exact this none
  · exact this
  · exact this (some c)

/-- How many evaluations begin in a run. -/
def evaluatedIn (plan : Plan) (input : Val) (s : σ) (o : ω) (clock : Nat)
    (cancelAfter : Option Nat) : Nat :=
  let w := initial s o clock cancelAfter
  let (p, w') := m.start plan input w
  let (q, w'') := m.sweep p w'
  m.evaluated plan input w + m.evaluatedBy settleStopped p w' +
    m.evaluatedFrom (if cancelAfter == some 0 then none else cancelAfter.map (clock + ·)) q w''

/-! ## What is yet to begin -/

variable {m} {weigh : Plan → Nat}

@[simp] theorem ahead_observe (site : Site) (v : Val) (w : World σ ω) :
    (m.observe site v w).1.ahead weigh = 0 := by
  unfold observe
  split <;> rfl

@[simp] theorem ahead_finish (c : Call) (w : World σ ω) : (m.finish c w).1.ahead weigh = 0 := by
  unfold finish
  dsimp only
  split
  · exact ahead_observe _ _ _
  · rfl

@[simp] theorem ahead_begin (site : Site) (v : Val) (w : World σ ω) :
    (m.begin site v w).1.ahead weigh = 0 := by
  unfold begin
  split
  · rfl
  · dsimp only
    split
    · exact ahead_finish _ _
    · rfl

theorem ahead_settleStopped (c : Call) (w : World σ ω) :
    (settleStopped c w).1.ahead weigh = 0 := by
  unfold settleStopped
  split <;> rfl

theorem ahead_settle (c : Call) (w : World σ ω) : (m.settle c w).1.ahead weigh = 0 := by
  unfold settle
  split
  · exact ahead_settleStopped _ _
  · unfold settleDue
    split
    · exact ahead_finish _ _
    · rfl

theorem Leaves.ahead_le (weigh : Plan → Nat) {site : Site} {p q : Process} {w w' : World σ ω}
    (h : m.Leaves site p w q w') : q.ahead weigh ≤ p.ahead weigh := by
  cases h with
  | ok => simp
  | error => exact Nat.le_refl _
  | wait => exact Nat.le_refl _

theorem Joins.ahead_le (weigh : Plan → Nat) {left right q : Process} {w w' : World σ ω}
    (h : m.Joins w left right q w') : q.ahead weigh ≤ left.ahead weigh + right.ahead weigh := by
  cases h with
  | wait => exact Nat.le_refl _
  | _ => exact Nat.zero_le _

/-! ## No node begins twice -/

/-- What begins when a plan is started and what is then yet to begin are parts of the plan. -/
theorem evaluated_add_ahead_le (plan : Plan) (v : Val) (w : World σ ω) :
    m.evaluated plan v w + (m.start plan v w).1.ahead Plan.size ≤ plan.size := by
  induction plan generalizing v w with
  | task site => simp [evaluated, start, Plan.size]
  | named site body ih =>
    have leaves : (m.leaveName site (m.start body v w)).1.ahead Plan.size ≤
        (m.start body v w).1.ahead Plan.size := (m.leaves site _ _).ahead_le _
    have := ih v w
    simp only [evaluated, start, Plan.size]
    omega
  | seq outer inner ihOuter ihInner =>
    have first := ihInner v w
    obtain ⟨q, w', h⟩ : ∃ q w', m.start inner v w = (q, w') := ⟨_, _, rfl⟩
    rw [h] at first
    simp only [evaluated, start, Plan.size, h]
    cases q with
    | done r =>
      cases r with
      | ok x =>
        have second := ihOuter x w'
        dsimp only
        omega
      | error e =>
        dsimp only [Process.ahead]
        omega
    | _ =>
      dsimp only [Process.ahead] at first ⊢
      omega
  | par left right ihLeft ihRight =>
    have first := ihLeft v (w.enter false)
    simp only [evaluated, start, Plan.size]
    split
    next =>
      dsimp only
      omega
    next =>
      have second := ihRight v (m.start left v (w.enter false)).2
      have joins := (m.joins (m.start left v (w.enter false)).1
        (m.start right v (m.start left v (w.enter false)).2).1
        (m.start right v (m.start left v (w.enter false)).2).2).ahead_le Plan.size
      omega

/-- What begins when a process is resumed and what is then yet to begin was yet to begin. -/
theorem evaluatedBy_add_ahead_le {settle : Call → World σ ω → Process × World σ ω}
    (settled : ∀ c w, (settle c w).1.ahead Plan.size = 0) (p : Process) (w : World σ ω) :
    m.evaluatedBy settle p w + (m.resume settle p w).1.ahead Plan.size ≤ p.ahead Plan.size := by
  induction p generalizing w with
  | done => exact Nat.le_refl _
  | call c => simp [evaluatedBy, resume, settled]
  | named site body ih =>
    have leaves : (m.leaveName site (m.resume settle body w)).1.ahead Plan.size ≤
        (m.resume settle body w).1.ahead Plan.size := (m.leaves site _ _).ahead_le _
    have := ih w
    simp only [evaluatedBy, resume, Process.ahead]
    omega
  | seq outer inner ih =>
    have first := ih w
    obtain ⟨q, w', h⟩ : ∃ q w', m.resume settle inner w = (q, w') := ⟨_, _, rfl⟩
    rw [h] at first
    simp only [evaluatedBy, resume, Process.ahead, h]
    cases q with
    | done r =>
      cases r with
      | ok x =>
        have second := m.evaluated_add_ahead_le outer x w'
        dsimp only
        omega
      | error e =>
        dsimp only [Process.ahead]
        omega
    | _ =>
      dsimp only [Process.ahead] at first ⊢
      omega
  | par flag left right ihLeft ihRight =>
    have first := ihLeft (w.enter flag)
    simp only [evaluatedBy, resume, Process.ahead]
    split
    next =>
      dsimp only
      omega
    next =>
      have second := ihRight (m.resume settle left (w.enter flag)).2
      have joins := (m.joins (m.resume settle left (w.enter flag)).1
        (m.resume settle right (m.resume settle left (w.enter flag)).2).1
        (m.resume settle right (m.resume settle left (w.enter flag)).2).2).ahead_le Plan.size
      omega

theorem evaluatedAt_add_ahead_le (p : Process) (w : World σ ω) :
    m.evaluatedAt p w + (m.tick p w).1.ahead Plan.size ≤ p.ahead Plan.size := by
  have settles := m.evaluatedBy_add_ahead_le (m.ahead_settle) p w
  have sweeps := m.evaluatedBy_add_ahead_le ahead_settleStopped (m.resume m.settle p w).1
    (m.resume m.settle p w).2
  simp only [evaluatedAt, tick, sweep] at *
  omega

/-! The evaluations that begin from now on are those of the present instant and of the rest. -/

theorem evaluatedFrom_of_quiet (cancelAt : Option Nat) {p : Process} (w : World σ ω)
    (quiet : p.nextWake = none) : m.evaluatedFrom cancelAt p w = 0 := by
  rw [evaluatedFrom]
  split
  · rfl
  next some => cases quiet.symm.trans some

theorem evaluatedFrom_of_wake {cancelAt : Option Nat} {p : Process} (w : World σ ω) {t : Nat}
    (wake : p.nextWake = some t) (before : ∀ c, cancelAt = some c → t < c) :
    m.evaluatedFrom cancelAt p w = m.evaluatedAt p { w with clock := t } +
      m.evaluatedFrom cancelAt (m.tick p { w with clock := t }).1
        (m.tick p { w with clock := t }).2 := by
  rw [evaluatedFrom]
  split
  next none => cases none.symm.trans wake
  next t' some =>
    obtain rfl := Option.some.inj (some.symm.trans wake)
    cases cancelAt with
    | none => rfl
    | some c => exact if_neg (Nat.not_le.2 (before c rfl))

theorem evaluatedFrom_of_cancel {c : Nat} {p : Process} (w : World σ ω) {t : Nat}
    (wake : p.nextWake = some t) (due : c ≤ t) :
    m.evaluatedFrom (some c) p w =
      m.evaluatedBy settleStopped p { w with clock := c, cancelled := true } +
        m.evaluatedFrom none (m.sweep p { w with clock := c, cancelled := true }).1
          (m.sweep p { w with clock := c, cancelled := true }).2 := by
  rw [evaluatedFrom]
  split
  next none => cases none.symm.trans wake
  next t' some =>
    obtain rfl := Option.some.inj (some.symm.trans wake)
    exact if_pos due

/-- What begins from now on was yet to begin. -/
theorem evaluatedFrom_le (cancelAt : Option Nat) (p : Process) (w : World σ ω) :
    m.evaluatedFrom cancelAt p w ≤ p.ahead Plan.size := by
  fun_induction evaluatedFrom m cancelAt p w with
  | case1 cancelAt p w quiet => exact Nat.zero_le _
  | case2 p w t wake _ r ih =>
    have instant : _ + r.1.ahead Plan.size ≤ _ := m.evaluatedAt_add_ahead_le p { w with clock := t }
    omega
  | case3 p w t wake _ c due w' _ r ih =>
    have instant : _ + r.1.ahead Plan.size ≤ _ :=
      m.evaluatedBy_add_ahead_le ahead_settleStopped p w'
    omega
  | case4 p w t wake _ c late r ih =>
    have instant : _ + r.1.ahead Plan.size ≤ _ := m.evaluatedAt_add_ahead_le p { w with clock := t }
    omega

/-- A run evaluates no node of its plan twice. -/
theorem evaluatedIn_le (plan : Plan) (input : Val) (s : σ) (o : ω) (clock : Nat)
    (cancelAfter : Option Nat) : m.evaluatedIn plan input s o clock cancelAfter ≤ plan.size := by
  have starts := m.evaluated_add_ahead_le plan input (initial s o clock cancelAfter)
  obtain ⟨p, w, h⟩ : ∃ p w, m.start plan input (initial s o clock cancelAfter) = (p, w) :=
    ⟨_, _, rfl⟩
  have sweeps := m.evaluatedBy_add_ahead_le ahead_settleStopped p w
  have goesOn := m.evaluatedFrom_le
    (if cancelAfter == some 0 then none else cancelAfter.map (clock + ·))
    (m.sweep p w).1 (m.sweep p w).2
  simp only [evaluatedIn, h, sweep] at *
  omega

/-! ## Counting calls -/

theorem Calls.length_made_le {site : Site} {v : Val} {p : Process} {w w' : World σ ω}
    (h : m.Calls site v w p w') : w'.made.length ≤ w.made.length + 1 := by
  have asked : (m.asked site v w).made.length = w.made.length + 1 := by simp [made_asked]
  cases h with
  | stopped => exact Nat.le_succ _
  | now =>
    rw [made_finish]
    exact Nat.le_of_eq asked
  | wait => exact Nat.le_of_eq asked

/-- The calls that starting a plan makes and the tasks that are then yet to begin are among the
tasks of the plan. -/
theorem Starts.made_add_ahead_le {plan : Plan} {v : Val} {p : Process} {w w' : World σ ω}
    (h : m.Starts plan v w p w') :
    w'.made.length + p.ahead Plan.leaves ≤ w.made.length + plan.leaves := by
  induction h with
  | task =>
    rw [ahead_begin]
    exact (m.calls _ _ _).length_made_le
  | named _ leaves ih =>
    have := leaves.ahead_le Plan.leaves
    rw [leaves.made_eq, Plan.leaves]
    omega
  | seqOk _ _ ihInner ihOuter =>
    simp only [Process.ahead, Plan.leaves] at *
    omega
  | seqError _ ih =>
    simp only [Process.ahead, Plan.leaves] at *
    omega
  | seqWait _ _ ih =>
    simp only [Process.ahead, Plan.leaves] at *
    omega
  | parEnds _ _ ih =>
    rw [World.made_leave, Plan.leaves]
    exact Nat.le_trans ih (Nat.add_le_add_left (Nat.le_add_right _ _) _)
  | @par left right v w l w₁ r w₂ p w₃ _ _ _ joins ihLeft ihRight =>
    have := joins.ahead_le Plan.leaves
    have entered : (w.enter false).made = w.made := rfl
    rw [joins.made_eq, Plan.leaves]
    rw [entered] at ihLeft
    omega

/-- The calls that resuming a process makes and the tasks that are then yet to begin were yet to
begin. -/
theorem Resumes.made_add_ahead_le {settle : Call → World σ ω → Process × World σ ω}
    (ahead : ∀ c w, (settle c w).1.ahead Plan.leaves = 0)
    (made : ∀ c w, (settle c w).2.made = w.made) {p p' : Process} {w w' : World σ ω}
    (h : m.Resumes settle p w p' w') :
    w'.made.length + p'.ahead Plan.leaves ≤ w.made.length + p.ahead Plan.leaves := by
  induction h with
  | done => exact Nat.le_refl _
  | call =>
    rw [ahead, made]
    exact Nat.le_refl _
  | named _ leaves ih =>
    have := leaves.ahead_le Plan.leaves
    rw [leaves.made_eq, Process.ahead]
    omega
  | seqOk _ starts ih =>
    have := starts.made_add_ahead_le
    simp only [Process.ahead] at *
    omega
  | seqError _ ih =>
    simp only [Process.ahead] at *
    omega
  | seqWait _ _ ih =>
    simp only [Process.ahead] at *
    omega
  | parEnds _ _ ih =>
    rw [World.made_leave, Process.made_drop, Process.ahead]
    exact Nat.le_trans ih (Nat.add_le_add_left (Nat.le_add_right _ _) _)
  | @par flag left right w l w₁ r w₂ p w₃ _ _ _ joins ihLeft ihRight =>
    have := joins.ahead_le Plan.leaves
    have entered : (w.enter flag).made = w.made := rfl
    rw [joins.made_eq, Process.ahead]
    rw [entered] at ihLeft
    omega

/-- A run makes no more calls than its plan has tasks. -/
theorem length_calls_run_le (plan : Plan) (input : Val) (s : σ) (o : ω) (clock : Nat)
    (cancelAfter : Option Nat) :
    (m.run plan input s o clock cancelAfter).2.calls.length ≤ plan.leaves := by
  rw [← World.length_made]
  refine m.run_spec (I := fun p w ↦ w.made.length + p.ahead Plan.leaves ≤ plan.leaves) ?_ ?_ ?_ ?_
  · intro p w h
    simpa [initial, World.made] using h.made_add_ahead_le
  · intro p w p' w' le h
    exact Nat.le_trans (h.made_add_ahead_le ahead_settleStopped made_settleStopped) le
  · intro p w t p' w' le _ h
    exact Nat.le_trans (h.made_add_ahead_le ahead_settle made_settle) le
  · intro p w t c le _ _ _
    exact le

end Machine

end Taskflow
