import Taskflow.Run.Process

/-!
# Runs

A run goes from instant to instant: to the next end of a call or to the caller's cancellation,
whichever comes first.  At each instant the calls that are over take effect, from left to right as
`Machine.resume` comes to them, what follows them begins, and whatever is in a cancelled scope is
given up.  Every instant but that of the cancellation ends a call, and no plan makes more calls than
it has leaves, so a run comes to its end (`work_tick_lt`).
-/

namespace Taskflow

namespace Machine

variable {σ ω : Type} (m : Machine σ ω)

/-! ## The clock stands still within an instant -/

@[simp] theorem clock_observe (site : Site) (v : Val) (w : World σ ω) :
    (m.observe site v w).2.clock = w.clock := by
  unfold observe
  split <;> rfl

@[simp] theorem clock_finish (c : Call) (w : World σ ω) : (m.finish c w).2.clock = w.clock := by
  unfold finish
  dsimp only
  split <;> simp

@[simp] theorem clock_begin (site : Site) (v : Val) (w : World σ ω) :
    (m.begin site v w).2.clock = w.clock := by
  unfold begin
  split
  · rfl
  · dsimp only
    split
    · rw [clock_finish]
    · rfl

@[simp] theorem clock_leaveName (site : Site) (r : Process × World σ ω) :
    (m.leaveName site r).2.clock = r.2.clock := by
  unfold leaveName
  split <;> simp

@[simp] theorem clock_join (l r : Process) (w : World σ ω) : (m.join l r w).2.clock = w.clock := by
  unfold join
  split <;> (try split) <;> simp

@[simp] theorem clock_start (p : Plan) (v : Val) (w : World σ ω) :
    (m.start p v w).2.clock = w.clock := by
  induction p generalizing v w with
  | task => simp [start]
  | named site body ih => simp [start, ih]
  | seq outer inner ihOuter ihInner =>
    rw [start]
    have := ihInner v w
    split <;> simp_all
  | par left right ihLeft ihRight =>
    rw [start]
    dsimp only
    split <;> simp [ihLeft, ihRight]

theorem clock_resume {settle : Call → World σ ω → Process × World σ ω}
    (h : ∀ c w, (settle c w).2.clock = w.clock) (p : Process) (w : World σ ω) :
    (m.resume settle p w).2.clock = w.clock := by
  induction p generalizing w with
  | done => rfl
  | call c => exact h c w
  | named site body ih => simp [resume, ih]
  | seq outer inner ih =>
    rw [resume]
    have := ih w
    split <;> simp_all
  | par flag left right ihLeft ihRight =>
    rw [resume]
    dsimp only
    split <;> simp [ihLeft, ihRight]

@[simp] theorem clock_settleDue (c : Call) (w : World σ ω) :
    (m.settleDue c w).2.clock = w.clock := by
  unfold settleDue
  split <;> simp

@[simp] theorem clock_settleStopped (c : Call) (w : World σ ω) :
    (settleStopped c w).2.clock = w.clock := by
  unfold settleStopped
  split <;> simp

@[simp] theorem clock_settle (c : Call) (w : World σ ω) : (m.settle c w).2.clock = w.clock := by
  unfold settle
  split <;> simp

/-! ## Work only gets less -/

@[simp] theorem work_observe (site : Site) (v : Val) (w : World σ ω) :
    (m.observe site v w).1.work = 0 := by
  unfold observe
  split <;> rfl

@[simp] theorem work_finish (c : Call) (w : World σ ω) : (m.finish c w).1.work = 0 := by
  unfold finish
  dsimp only
  split <;> simp [Process.work]

theorem work_begin_le (site : Site) (v : Val) (w : World σ ω) :
    (m.begin site v w).1.work ≤ 1 := by
  unfold begin
  split
  · simp [Process.work]
  · dsimp only
    split <;> simp [Process.work]

theorem work_leaveName_le (site : Site) (r : Process × World σ ω) :
    (m.leaveName site r).1.work ≤ r.1.work := by
  unfold leaveName
  split <;> simp [Process.work]

theorem work_join_le (l r : Process) (w : World σ ω) :
    (m.join l r w).1.work ≤ l.work + r.work := by
  unfold join
  split <;> (try split) <;> simp [Process.work]

theorem work_eq_zero_of_ends {p : Process} (h : m.ends p = true) : p.work = 0 := by
  unfold ends at h
  split at h
  · rfl
  · cases h

theorem work_start_le (p : Plan) (v : Val) (w : World σ ω) :
    (m.start p v w).1.work ≤ p.leaves := by
  induction p generalizing v w with
  | task => exact m.work_begin_le _ _ _
  | named site body ih => exact Nat.le_trans (m.work_leaveName_le _ _) (ih v w)
  | seq outer inner ihOuter ihInner =>
    rw [start]
    have := ihInner v w
    split
    next x w' _ =>
      have := ihOuter x w'
      simp only [Plan.leaves]
      omega
    next => simp [Process.work]
    next p _ _ _ h =>
      rw [h] at this
      dsimp only [Process.work, Plan.leaves] at *
      omega
  | par left right ihLeft ihRight =>
    rw [start]
    dsimp only
    split
    next h =>
      have := m.work_eq_zero_of_ends h
      simp only [this]
      omega
    next =>
      refine Nat.le_trans (m.work_join_le _ _ _) ?_
      exact Nat.add_le_add (ihLeft _ _) (ihRight _ _)

theorem work_resume_le {settle : Call → World σ ω → Process × World σ ω}
    (h : ∀ c w, (settle c w).1.work ≤ 1) (p : Process) (w : World σ ω) :
    (m.resume settle p w).1.work ≤ p.work := by
  induction p generalizing w with
  | done => exact Nat.le_refl _
  | call c => exact h c w
  | named site body ih => exact Nat.le_trans (m.work_leaveName_le _ _) (ih w)
  | seq outer inner ih =>
    rw [resume]
    have := ih w
    split
    next x w' _ =>
      have := m.work_start_le outer x w'
      simp only [Process.work]
      omega
    next => simp [Process.work]
    next p _ _ _ e =>
      rw [e] at this
      dsimp only [Process.work] at *
      omega
  | par flag left right ihLeft ihRight =>
    rw [resume]
    dsimp only
    split
    next e =>
      have := m.work_eq_zero_of_ends e
      simp only [this]
      omega
    next =>
      refine Nat.le_trans (m.work_join_le _ _ _) ?_
      exact Nat.add_le_add (ihLeft _) (ihRight _)

theorem work_settleStopped_le (c : Call) (w : World σ ω) : (settleStopped c w).1.work ≤ 1 := by
  unfold settleStopped
  split <;> simp [Process.work]

/-- A call that is due is over or given up. -/
theorem work_settle_of_due {c : Call} {w : World σ ω} (due : c.wake ≤ w.clock) :
    (m.settle c w).1.work = 0 := by
  unfold settle
  split
  next stopped => simp [settleStopped, stopped, Process.work]
  next => simp [settleDue, due]

theorem work_settle_le (c : Call) (w : World σ ω) : (m.settle c w).1.work ≤ 1 := by
  unfold settle
  split
  · exact work_settleStopped_le c w
  · unfold settleDue
    split <;> simp [Process.work]

theorem work_sweep_le (p : Process) (w : World σ ω) : (m.sweep p w).1.work ≤ p.work :=
  m.work_resume_le work_settleStopped_le p w

end Machine

namespace Process

/-- Whether a process waits for a call that is over by the instant `t`. -/
def due (t : Nat) : Process → Bool
  | .done _ => false
  | .call c => c.wake ≤ t
  | .named _ body => body.due t
  | .seq _ inner => inner.due t
  | .par _ left right => left.due t || right.due t

theorem due_nextWake {p : Process} {t : Nat} (h : p.nextWake = some t) : p.due t = true := by
  induction p generalizing t with
  | done => cases h
  | call c =>
    cases h
    simp [due]
  | named site body ih => exact ih h
  | seq outer inner ih => exact ih h
  | par flag left right ihLeft ihRight =>
    rw [nextWake] at h
    rw [due, Bool.or_eq_true]
    split at h
    next a b ha hb =>
      cases h
      by_cases le : a ≤ b
      · exact .inl (by rw [Nat.min_eq_left le]; exact ihLeft ha)
      · exact .inr (by rw [Nat.min_eq_right (by omega)]; exact ihRight hb)
    next a ha _ =>
      cases h
      exact .inl (ihLeft ha)
    next => exact .inr (ihRight h)

theorem work_pos_of_due {p : Process} {t : Nat} (h : p.due t = true) : 0 < p.work := by
  induction p with
  | done => cases h
  | call c => simp [work]
  | named site body ih => exact ih h
  | seq outer inner ih =>
    have := ih h
    rw [work]
    omega
  | par flag left right ihLeft ihRight =>
    rw [due, Bool.or_eq_true] at h
    rw [work]
    rcases h with h | h
    · have := ihLeft h
      omega
    · have := ihRight h
      omega

end Process

namespace Machine

variable {σ ω : Type} (m : Machine σ ω)

theorem work_settle_lt {p : Process} {w : World σ ω} (h : p.due w.clock = true) :
    (m.resume m.settle p w).1.work < p.work := by
  induction p generalizing w with
  | done => cases h
  | call c =>
    have : c.wake ≤ w.clock := by simpa [Process.due] using h
    simp [resume, m.work_settle_of_due this, Process.work]
  | named site body ih => exact Nat.lt_of_le_of_lt (m.work_leaveName_le _ _) (ih h)
  | seq outer inner ih =>
    rw [resume]
    have less := ih (w := w) h
    split
    next x w' e =>
      have := m.work_start_le outer x w'
      simp only [e, Process.work] at *
      omega
    next e =>
      simp only [e, Process.work] at *
      omega
    next p _ _ _ e =>
      simp only [e, Process.work] at *
      omega
  | par flag left right ihLeft ihRight =>
    rw [resume]
    dsimp only
    split
    next e =>
      have := m.work_eq_zero_of_ends e
      have := Process.work_pos_of_due h
      dsimp only
      omega
    next =>
      refine Nat.lt_of_le_of_lt (m.work_join_le _ _ _) ?_
      rw [Process.due, Bool.or_eq_true] at h
      rw [Process.work]
      have leftLe := m.work_resume_le m.work_settle_le left (w.enter flag)
      have rightLe := m.work_resume_le m.work_settle_le right
        (m.resume m.settle left (w.enter flag)).2
      rcases h with h | h
      · have := ihLeft (w := w.enter flag) h
        omega
      · have := ihRight (w := (m.resume m.settle left (w.enter flag)).2)
          (by rwa [m.clock_resume m.clock_settle, World.clock_enter])
        omega

/-- An instant at which a call is over leaves less to do. -/
theorem work_tick_lt {p : Process} {w : World σ ω} (h : p.due w.clock = true) :
    (m.tick p w).1.work < p.work :=
  Nat.lt_of_le_of_lt (m.work_sweep_le _ _) (m.work_settle_lt h)

/-! ## Running -/

/-- What bounds the instants of a run: the calls that are left, and the cancellation. -/
def remaining (cancelAt : Option Nat) (p : Process) : Nat :=
  match cancelAt with
  | none => p.work
  | some _ => p.work + 1

theorem remaining_tick_lt {p : Process} {w : World σ ω} (cancelAt : Option Nat)
    (h : p.due w.clock = true) : remaining cancelAt (m.tick p w).1 < remaining cancelAt p := by
  have := m.work_tick_lt h
  cases cancelAt with
  | none => exact this
  | some _ => exact Nat.succ_lt_succ this

theorem remaining_sweep_lt (t : Nat) (p : Process) (w : World σ ω) :
    remaining none (m.sweep p w).1 < remaining (some t) p :=
  Nat.lt_succ_of_le (m.work_sweep_le p w)

/-- Go on with a process to its end.  The caller cancels the run at the instant `cancelAt`, if that
comes; at one instant the cancellation comes first. -/
def proceed (cancelAt : Option Nat) (p : Process) (w : World σ ω) :
    Except RunError Val × World σ ω :=
  match h : p.nextWake with
  | none => (p.result, w)
  | some t =>
    have := fun c ↦ m.remaining_tick_lt (w := { w with clock := t }) c (Process.due_nextWake h)
    match cancelAt with
    | none =>
      let r := m.tick p { w with clock := t }
      proceed none r.1 r.2
    | some c =>
      if c ≤ t then
        have := m.remaining_sweep_lt c p { w with clock := c, cancelled := true }
        let r := m.sweep p { w with clock := c, cancelled := true }
        proceed none r.1 r.2
      else
        let r := m.tick p { w with clock := t }
        proceed (some c) r.1 r.2
termination_by remaining cancelAt p
decreasing_by
  · exact this none
  · exact this
  · exact this (some c)

/-- Run a plan.  The executor goes on with the memory `s`, the observer with `o`; the run begins at
the instant `clock`.  The caller cancels it `cancelAfter` milliseconds later, which is before the
first call if that is zero. -/
def run (plan : Plan) (input : Val) (s : σ) (o : ω) (clock : Nat) (cancelAfter : Option Nat) :
    Except RunError Val × World σ ω :=
  let (p, w) := m.start plan input ⟨s, o, clock, [], cancelAfter == some 0, []⟩
  let (p, w) := m.sweep p w
  m.proceed (if cancelAfter == some 0 then none else cancelAfter.map (clock + ·)) p w

end Machine

end Taskflow
