import Taskflow.Run.Machine

/-!
# What a run can do

`Machine.Starts` and `Machine.Resumes` say what becomes of a plan that is started and of a process
that is resumed, one rule for each way it can go.  They describe the machine completely (`starts`,
`resumes`), so what all runs have in common is proved by induction on them: a fact about one instant
for each rule, then a fact about the whole run by `proceed_spec`, or by `run_map` where two runs
differ in their processes alone.

The first such fact is that every instant carries a process as far as it can get (`Settled`), so a
process in which nothing waits is done.
-/

namespace Taskflow

namespace Process

def isDone : Process → Bool
  | .done _ => true
  | _ => false

theorem eq_done_of_isDone {p : Process} (h : p.isDone = true) : p = .done p.result := by
  cases p with
  | done => rfl
  | _ => cases h

theorem isDone_eq_false {p : Process} (notOk : ∀ v, p ≠ .done (.ok v))
    (notError : ∀ e, p ≠ .done (.error e)) : p.isDone = false := by
  cases p with
  | done r =>
    cases r with
    | ok v => exact (notOk v rfl).elim
    | error e => exact (notError e rfl).elim
  | _ => rfl

end Process

namespace Machine

variable {σ ω : Type} (m : Machine σ ω)

/-- Only an error ends a product early, and only if the product fails fast. -/
theorem ends_iff {p : Process} :
    m.ends p = true ↔ ∃ e, p = .done (.error e) ∧ m.policy = .failFast := by
  unfold ends
  split
  next e => simp
  next notError =>
    constructor
    · rintro ⟨⟩
    · rintro ⟨e, rfl, -⟩
      exact (notError e rfl).elim

/-! ## One instant -/

/-- What becomes of a functor name when its body has got somewhere. -/
inductive Leaves (site : Site) : Process → World σ ω → Process → World σ ω → Prop
  | ok {v w} : Leaves site (.done (.ok v)) w (m.observe site v w).1 (m.observe site v w).2
  | error {e w} : Leaves site (.done (.error e)) w (.done (.error e)) w
  | wait {p w} : p.isDone = false → Leaves site p w (.named site p) w

/-- What becomes of a product when its branches have got somewhere. -/
inductive Joins (w : World σ ω) : Process → Process → Process → World σ ω → Prop
  | ok {a b} : Joins w (.done (.ok a)) (.done (.ok b)) (.done (.ok (.pair a b))) w.leave
  | left {e r} : Joins w (.done (.error e)) (.done r) (.done (.error e)) w.leave
  | right {a e} : Joins w (.done (.ok a)) (.done (.error e)) (.done (.error e)) w.leave
  /-- the left branch is given up -/
  | dropLeft {left e} : left.isDone = false → m.policy = .failFast →
      Joins w left (.done (.error e)) (.done (.error e)) (left.drop w).leave
  | dropRight {e right} : right.isDone = false → m.policy = .failFast →
      Joins w (.done (.error e)) right (.done (.error e)) (right.drop w).leave
  | wait {left right} : (left.isDone && right.isDone) = false →
      m.ends left = false → m.ends right = false →
      Joins w left right (.par w.flag left right) w.leave

/-- What becomes of a plan that is started on a value. -/
inductive Starts : Plan → Val → World σ ω → Process → World σ ω → Prop
  | task {site v w} : Starts (.task site) v w (m.begin site v w).1 (m.begin site v w).2
  | named {site body v w p₁ w₁ p₂ w₂} :
    Starts body v w p₁ w₁ → m.Leaves site p₁ w₁ p₂ w₂ → Starts (.named site body) v w p₂ w₂
  | seqOk {outer inner v w x w₁ p w₂} :
    Starts inner v w (.done (.ok x)) w₁ → Starts outer x w₁ p w₂ →
      Starts (.seq outer inner) v w p w₂
  | seqError {outer inner v w e w₁} :
    Starts inner v w (.done (.error e)) w₁ → Starts (.seq outer inner) v w (.done (.error e)) w₁
  | seqWait {outer inner v w p w₁} :
    Starts inner v w p w₁ → p.isDone = false → Starts (.seq outer inner) v w (.seq outer p) w₁
  | parEnds {left right v w l w₁} :
    Starts left v (w.enter false) l w₁ → m.ends l = true →
      Starts (.par left right) v w l w₁.leave
  | par {left right v w l w₁ r w₂ p w₃} :
    Starts left v (w.enter false) l w₁ → m.ends l = false → Starts right v w₁ r w₂ →
      m.Joins w₂ l r p w₃ → Starts (.par left right) v w p w₃

/-- What becomes of a process whose calls are settled by `settle`. -/
inductive Resumes (settle : Call → World σ ω → Process × World σ ω) :
    Process → World σ ω → Process → World σ ω → Prop
  | done {r w} : Resumes settle (.done r) w (.done r) w
  | call {c w} : Resumes settle (.call c) w (settle c w).1 (settle c w).2
  | named {site body w p₁ w₁ p₂ w₂} :
    Resumes settle body w p₁ w₁ → m.Leaves site p₁ w₁ p₂ w₂ →
      Resumes settle (.named site body) w p₂ w₂
  | seqOk {outer inner w x w₁ p w₂} :
    Resumes settle inner w (.done (.ok x)) w₁ → m.Starts outer x w₁ p w₂ →
      Resumes settle (.seq outer inner) w p w₂
  | seqError {outer inner w e w₁} :
    Resumes settle inner w (.done (.error e)) w₁ →
      Resumes settle (.seq outer inner) w (.done (.error e)) w₁
  | seqWait {outer inner w p w₁} :
    Resumes settle inner w p w₁ → p.isDone = false →
      Resumes settle (.seq outer inner) w (.seq outer p) w₁
  | parEnds {flag left right w l w₁} :
    Resumes settle left (w.enter flag) l w₁ → m.ends l = true →
      Resumes settle (.par flag left right) w l (right.drop w₁).leave
  | par {flag left right w l w₁ r w₂ p w₃} :
    Resumes settle left (w.enter flag) l w₁ → m.ends l = false → Resumes settle right w₁ r w₂ →
      m.Joins w₂ l r p w₃ → Resumes settle (.par flag left right) w p w₃

theorem leaves (site : Site) (p : Process) (w : World σ ω) :
    m.Leaves site p w (m.leaveName site (p, w)).1 (m.leaveName site (p, w)).2 := by
  cases p with
  | done r =>
    cases r with
    | ok v => exact .ok
    | error e => exact .error
  | _ => exact .wait rfl

theorem joins (left right : Process) (w : World σ ω) :
    m.Joins w left right (m.join left right w).1 (m.join left right w).2 := by
  cases policy : m.policy <;> cases left with
  | done l =>
    cases l <;> cases right with
    | done r => cases r <;> constructor
    | _ =>
      simp only [join, policy]
      first
      | exact .dropRight rfl policy
      | exact .wait rfl (by simp [ends, policy]) (by simp [ends])
  | _ =>
    cases right with
    | done r =>
      cases r <;> simp only [join, policy] <;>
        first
        | exact .dropLeft rfl policy
        | exact .wait rfl (by simp [ends]) (by simp [ends, policy])
    | _ => exact .wait rfl rfl rfl

/-- `Starts` describes `start`. -/
theorem starts (plan : Plan) (v : Val) (w : World σ ω) :
    m.Starts plan v w (m.start plan v w).1 (m.start plan v w).2 := by
  induction plan generalizing v w with
  | task => exact .task
  | named site body ih => exact .named (ih v w) (m.leaves _ _ _)
  | seq outer inner ihOuter ihInner =>
    have first := ihInner v w
    rw [start]
    split
    next h =>
      rw [h] at first
      exact .seqOk first (ihOuter _ _)
    next h =>
      rw [h] at first
      exact .seqError first
    next p _ notOk notError h =>
      rw [h] at first
      exact .seqWait first (Process.isDone_eq_false notOk notError)
  | par left right ihLeft ihRight =>
    rw [start]
    dsimp only
    split
    next h => exact .parEnds (ihLeft _ _) h
    next h => exact .par (ihLeft _ _) (by simpa using h) (ihRight _ _) (m.joins _ _ _)

/-- `Resumes` describes `resume`. -/
theorem resumes (settle : Call → World σ ω → Process × World σ ω) (p : Process) (w : World σ ω) :
    m.Resumes settle p w (m.resume settle p w).1 (m.resume settle p w).2 := by
  induction p generalizing w with
  | done => exact .done
  | call => exact .call
  | named site body ih => exact .named (ih w) (m.leaves _ _ _)
  | seq outer inner ih =>
    have first := ih w
    rw [resume]
    split
    next h =>
      rw [h] at first
      exact .seqOk first (m.starts _ _ _)
    next h =>
      rw [h] at first
      exact .seqError first
    next p _ notOk notError h =>
      rw [h] at first
      exact .seqWait first (Process.isDone_eq_false notOk notError)
  | par flag left right ihLeft ihRight =>
    rw [resume]
    dsimp only
    split
    next h => exact .parEnds (ihLeft _) h
    next h => exact .par (ihLeft _) (by simpa using h) (ihRight _) (m.joins _ _ _)

/-! Each rule determines where it leads, so the relations lead nowhere else. -/

variable {m}

theorem Leaves.eq {site : Site} {p q : Process} {w w' : World σ ω} (h : m.Leaves site p w q w') :
    m.leaveName site (p, w) = (q, w') := by
  cases h with
  | ok => rfl
  | error => rfl
  | wait pending =>
    cases p with
    | done => cases pending
    | _ => rfl

theorem Joins.eq {left right q : Process} {w w' : World σ ω} (h : m.Joins w left right q w') :
    m.join left right w = (q, w') := by
  cases h with
  | ok => rfl
  | left => rfl
  | right => rfl
  | dropLeft pending policy =>
    cases left with
    | done => cases pending
    | _ => simp [join, policy]
  | dropRight pending policy =>
    cases right with
    | done => cases pending
    | _ => simp [join, policy]
  | wait pending notLeft notRight =>
    cases left with
    | done l =>
      cases right with
      | done => cases pending
      | _ =>
        cases l <;> cases policy : m.policy <;> simp [join, policy, ends] at *
    | _ =>
      cases right with
      | done r =>
        cases r <;> cases policy : m.policy <;> simp [join, policy, ends] at *
      | _ => rfl

/-- A plan that is started gets nowhere else. -/
theorem Starts.eq {plan : Plan} {v : Val} {w w' : World σ ω} {p : Process}
    (h : m.Starts plan v w p w') : m.start plan v w = (p, w') := by
  induction h with
  | task => rfl
  | named _ leaves ih => rw [start, ih, leaves.eq]
  | seqOk _ _ ihInner ihOuter => simp only [start, ihInner, ihOuter]
  | seqError _ ih => simp only [start, ih]
  | @seqWait outer inner v w p w₁ _ pending ih =>
    rw [start, ih]
    cases p with
    | done => cases pending
    | _ => rfl
  | parEnds _ ends ih => simp only [start, ih, ends, if_true]
  | par _ notLeft _ joins ihLeft ihRight =>
    simp only [start, ihLeft, notLeft, ihRight, joins.eq, Bool.false_eq_true, if_false]

/-- Nor does a process that is resumed. -/
theorem Resumes.eq {settle : Call → World σ ω → Process × World σ ω} {p p' : Process}
    {w w' : World σ ω} (h : m.Resumes settle p w p' w') : m.resume settle p w = (p', w') := by
  induction h with
  | done => rfl
  | call => rfl
  | named _ leaves ih => rw [resume, ih, leaves.eq]
  | seqOk _ starts ih => simp only [resume, ih, starts.eq]
  | seqError _ ih => simp only [resume, ih]
  | @seqWait outer inner w p w₁ _ pending ih =>
    rw [resume, ih]
    cases p with
    | done => cases pending
    | _ => rfl
  | parEnds _ ends ih => simp only [resume, ih, ends, if_true]
  | par _ notLeft _ joins ihLeft ihRight =>
    simp only [resume, ihLeft, notLeft, ihRight, joins.eq, Bool.false_eq_true, if_false]

/-- No time passes while a plan is started. -/
theorem Starts.clock_eq {plan : Plan} {v : Val} {w w' : World σ ω} {p : Process}
    (h : m.Starts plan v w p w') : w'.clock = w.clock := by
  have stands := m.clock_start plan v w
  rwa [h.eq] at stands

/-- No time passes while a process is resumed. -/
theorem Resumes.clock_eq {settle : Call → World σ ω → Process × World σ ω}
    (stands : ∀ c w, (settle c w).2.clock = w.clock) {p p' : Process} {w w' : World σ ω}
    (h : m.Resumes settle p w p' w') : w'.clock = w.clock := by
  have stands := m.clock_resume stands p w
  rwa [h.eq] at stands

variable (m)

/-! ## Where a process comes to rest -/

/-- Whether a process has got as far as it can: everything in it that is not done goes on because of
a call. -/
def Settled : Process → Prop
  | .done _ => True
  | .call _ => True
  | .named _ body => Settled body ∧ body.isDone = false
  | .seq _ inner => Settled inner ∧ inner.isDone = false
  | .par _ left right => Settled left ∧ Settled right ∧ (left.isDone && right.isDone) = false ∧
      m.ends left = false ∧ m.ends right = false

variable {m}

/-- A process that has got as far as it can and waits for nothing is done. -/
theorem Settled.isDone {p : Process} (settled : m.Settled p) (quiet : p.nextWake = none) :
    p.isDone = true := by
  induction p with
  | done => rfl
  | call => cases quiet
  | named site body ih =>
    have := ih settled.1 quiet
    simp [settled.2] at this
  | seq outer inner ih =>
    have := ih settled.1 quiet
    simp [settled.2] at this
  | par flag left right ihLeft ihRight =>
    obtain ⟨settledLeft, settledRight, pending, -⟩ := settled
    rw [Process.nextWake] at quiet
    split at quiet
    next => cases quiet
    next => cases quiet
    next none =>
      rw [ihLeft settledLeft none, ihRight settledRight quiet] at pending
      cases pending

theorem isDone_observe (site : Site) (v : Val) (w : World σ ω) :
    (m.observe site v w).1.isDone = true := by
  unfold observe
  split <;> rfl

theorem isDone_finish (c : Call) (w : World σ ω) : (m.finish c w).1.isDone = true := by
  unfold finish
  dsimp only
  split
  · exact isDone_observe _ _ _
  · rfl

theorem settled_observe (site : Site) (v : Val) (w : World σ ω) :
    m.Settled (m.observe site v w).1 := by
  unfold observe
  split <;> trivial

theorem settled_finish (c : Call) (w : World σ ω) : m.Settled (m.finish c w).1 := by
  unfold finish
  dsimp only
  split
  · exact settled_observe _ _ _
  · trivial

theorem settled_begin (site : Site) (v : Val) (w : World σ ω) : m.Settled (m.begin site v w).1 := by
  unfold begin
  split
  · trivial
  · dsimp only
    split
    · exact settled_finish _ _
    · trivial

theorem Leaves.settled {site : Site} {p q : Process} {w w' : World σ ω} (h : m.Leaves site p w q w')
    (settled : m.Settled p) : m.Settled q := by
  cases h with
  | ok => exact settled_observe _ _ _
  | error => trivial
  | wait pending => exact ⟨settled, pending⟩

theorem Joins.settled {left right q : Process} {w w' : World σ ω} (h : m.Joins w left right q w')
    (settledLeft : m.Settled left) (settledRight : m.Settled right) : m.Settled q := by
  cases h with
  | wait pending notLeft notRight =>
    exact ⟨settledLeft, settledRight, pending, notLeft, notRight⟩
  | _ => trivial

theorem Starts.settled {plan : Plan} {v : Val} {w w' : World σ ω} {p : Process}
    (h : m.Starts plan v w p w') : m.Settled p := by
  induction h with
  | task => exact settled_begin _ _ _
  | named _ leaves ih => exact leaves.settled ih
  | seqOk _ _ _ ih => exact ih
  | seqError => trivial
  | seqWait _ pending ih => exact ⟨ih, pending⟩
  | parEnds _ _ ih => exact ih
  | par _ _ _ joins ihLeft ihRight => exact joins.settled ihLeft ihRight

theorem Resumes.settled {settle : Call → World σ ω → Process × World σ ω} {p p' : Process}
    {w w' : World σ ω} (settled : ∀ c w, m.Settled (settle c w).1)
    (h : m.Resumes settle p w p' w') : m.Settled p' := by
  induction h with
  | done => trivial
  | call => exact settled _ _
  | named _ leaves ih => exact leaves.settled ih
  | seqOk _ starts _ => exact starts.settled
  | seqError => trivial
  | seqWait _ pending ih => exact ⟨ih, pending⟩
  | parEnds _ _ ih => exact ih
  | par _ _ _ joins ihLeft ihRight => exact joins.settled ihLeft ihRight

theorem settled_settleDue (c : Call) (w : World σ ω) : m.Settled (m.settleDue c w).1 := by
  unfold settleDue
  split
  · exact settled_finish _ _
  · trivial

theorem settled_settleStopped (c : Call) (w : World σ ω) :
    m.Settled (settleStopped c w).1 := by
  unfold settleStopped
  split <;> trivial

theorem settled_settle (c : Call) (w : World σ ω) : m.Settled (m.settle c w).1 := by
  unfold settle
  split
  · exact settled_settleStopped _ _
  · exact settled_settleDue _ _

variable (m)

theorem settled_sweep (p : Process) (w : World σ ω) : m.Settled (m.sweep p w).1 :=
  (m.resumes settleStopped p w).settled settled_settleStopped

/-! ## From instant to instant -/

/-- A process that waits for nothing has ended. -/
theorem proceed_of_quiet (cancelAt : Option Nat) {p : Process} (w : World σ ω)
    (quiet : p.nextWake = none) : m.proceed cancelAt p w = (p.result, w) := by
  rw [proceed]
  split
  · rfl
  next some => cases quiet.symm.trans some

/-- The next end of a call comes before the caller's cancellation. -/
theorem proceed_of_wake {cancelAt : Option Nat} {p : Process} (w : World σ ω) {t : Nat}
    (wake : p.nextWake = some t) (before : ∀ c, cancelAt = some c → t < c) :
    m.proceed cancelAt p w = m.proceed cancelAt (m.tick p { w with clock := t }).1
      (m.tick p { w with clock := t }).2 := by
  rw [proceed]
  split
  next none => cases none.symm.trans wake
  next t' some =>
    obtain rfl := Option.some.inj (some.symm.trans wake)
    cases cancelAt with
    | none => rfl
    | some c => exact if_neg (Nat.not_le.2 (before c rfl))

/-- The caller's cancellation does not come after the next end of a call. -/
theorem proceed_of_cancel {c : Nat} {p : Process} (w : World σ ω) {t : Nat}
    (wake : p.nextWake = some t) (due : c ≤ t) :
    m.proceed (some c) p w = m.proceed none (m.sweep p { w with clock := c, cancelled := true }).1
      (m.sweep p { w with clock := c, cancelled := true }).2 := by
  rw [proceed]
  split
  next none => cases none.symm.trans wake
  next t' some =>
    obtain rfl := Option.some.inj (some.symm.trans wake)
    exact if_pos due

/-- What holds of a process and is kept by every instant of its run holds when the run ends, and
then the process is done.  An instant is the next end of a call, or the caller's cancellation if
that comes first. -/
theorem proceed_spec {I : Process → World σ ω → Prop} {cancelAt : Option Nat}
    (tick : ∀ {p w t}, I p w → p.nextWake = some t →
      I (m.tick p { w with clock := t }).1 (m.tick p { w with clock := t }).2)
    (cancel : ∀ {p w t c}, I p w → p.nextWake = some t → cancelAt = some c → c ≤ t →
      I (m.sweep p { w with clock := c, cancelled := true }).1
        (m.sweep p { w with clock := c, cancelled := true }).2)
    {p : Process} {w : World σ ω} (settled : m.Settled p) (h : I p w) :
    I (.done (m.proceed cancelAt p w).1) (m.proceed cancelAt p w).2 := by
  fun_induction proceed m cancelAt p w with
  | case1 cancelAt p w quiet =>
    rw [← Process.eq_done_of_isDone (settled.isDone quiet)]
    exact h
  | case2 p w t wake _ r ih => exact ih cancel (m.settled_sweep _ _) (tick h wake)
  | case3 p w t wake _ c due _ r ih =>
    exact ih (fun _ _ none ↦ nomatch none) (m.settled_sweep _ _) (cancel h wake rfl due)
  | case4 p w t wake _ c late r ih => exact ih cancel (m.settled_sweep _ _) (tick h wake)

/-- The world in which a run begins. -/
def initial (s : σ) (o : ω) (clock : Nat) (cancelAfter : Option Nat) : World σ ω :=
  ⟨s, o, clock, [], cancelAfter == some 0, []⟩

/-- What holds after the start of a run, and is kept by giving up what is cancelled, by the ends of
calls and by the caller's cancellation, holds when the run ends. -/
theorem run_spec {I : Process → World σ ω → Prop} {plan : Plan} {input : Val} {s : σ} {o : ω}
    {clock : Nat} {cancelAfter : Option Nat}
    (start : ∀ {p w}, m.Starts plan input (initial s o clock cancelAfter) p w → I p w)
    (sweep : ∀ {p w p' w'}, I p w → m.Resumes settleStopped p w p' w' → I p' w')
    (settle : ∀ {p w t p' w'}, I p w → p.nextWake = some t →
      m.Resumes m.settle p { w with clock := t } p' w' → I p' w')
    (cancel : ∀ {p w t c}, I p w → p.nextWake = some t → cancelAfter.map (clock + ·) = some c →
      c ≤ t → I p { w with clock := c, cancelled := true }) :
    I (.done (m.run plan input s o clock cancelAfter).1)
      (m.run plan input s o clock cancelAfter).2 := by
  refine m.proceed_spec ?_ ?_ (m.settled_sweep _ _)
    (sweep (start (m.starts _ _ _)) (m.resumes _ _ _))
  · intro p w t h wake
    exact sweep (settle h wake (m.resumes _ _ _)) (m.resumes _ _ _)
  · intro p w t c h wake at' due
    refine sweep (cancel h wake ?_ due) (m.resumes _ _ _)
    split at at'
    · cases at'
    · exact at'

/-! ## Runs that differ in their processes alone -/

section

variable {f : Process → Process} (done : ∀ r, f (.done r) = .done r)
  (wakes : ∀ p, (f p).nextWake = p.nextWake)
  (sweeps : ∀ {p w p' w'}, m.Resumes settleStopped p w p' w' →
    m.Resumes settleStopped (f p) w (f p') w')
  (settles : ∀ {p w p' w'}, m.Resumes m.settle p w p' w' → m.Resumes m.settle (f p) w (f p') w')
include done wakes sweeps settles

/-- What every instant does to a process it does to the process that `f` makes of it. -/
theorem proceed_map (cancelAt : Option Nat) {p : Process} (settled : m.Settled p) (w : World σ ω) :
    m.proceed cancelAt (f p) w = m.proceed cancelAt p w := by
  have sweep (p : Process) (w : World σ ω) :
      m.sweep (f p) w = (f (m.sweep p w).1, (m.sweep p w).2) :=
    (sweeps (m.resumes settleStopped p w)).eq
  have tick (p : Process) (w : World σ ω) :
      m.tick (f p) w = (f (m.tick p w).1, (m.tick p w).2) := by
    rw [Machine.tick, (settles (m.resumes m.settle p w)).eq]
    exact sweep _ _
  fun_induction proceed m cancelAt p w with
  | case1 cancelAt p w quiet =>
    rw [Process.eq_done_of_isDone (settled.isDone quiet), done]
    exact m.proceed_of_quiet cancelAt w rfl
  | case2 p w t wake _ r ih =>
    have before : ∀ c, none = some c → t < c := by
      rintro c ⟨⟩
    rw [m.proceed_of_wake w ((wakes p).trans wake) before, tick]
    exact ih (m.settled_sweep _ _)
  | case3 p w t wake _ c due _ r ih =>
    rw [m.proceed_of_cancel w ((wakes p).trans wake) due, sweep]
    exact ih (m.settled_sweep _ _)
  | case4 p w t wake _ c late r ih =>
    have before : ∀ c', some c = some c' → t < c' := by
      rintro c' ⟨⟩
      exact Nat.not_le.1 late
    rw [m.proceed_of_wake w ((wakes p).trans wake) before, tick]
    exact ih (m.settled_sweep _ _)

/-- If `f` commutes with the start of a run, with the giving up of what is cancelled and with the
ends of calls, then the runs end in the same way and in the same world. -/
theorem run_map {plan plan' : Plan}
    (starts : ∀ {v w p w'}, m.Starts plan v w p w' → m.Starts plan' v w (f p) w') (input : Val)
    (s : σ) (o : ω) (clock : Nat) (cancelAfter : Option Nat) :
    m.run plan' input s o clock cancelAfter = m.run plan input s o clock cancelAfter := by
  have start := (starts (m.starts plan input (initial s o clock cancelAfter))).eq
  unfold run
  rw [initial] at start
  rw [start]
  dsimp only
  rw [sweep, (sweeps (m.resumes settleStopped _ _)).eq]
  exact m.proceed_map done wakes sweeps settles _ (m.settled_sweep _ _) _

end

end Machine

end Taskflow
