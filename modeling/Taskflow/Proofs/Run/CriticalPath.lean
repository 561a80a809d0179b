import Taskflow.Proofs.Run.Cancellation
import Taskflow.Proofs.Run.Schedule
import Taskflow.Proofs.Run.Watching

/-!
# The critical path

If the reply to a call is a function of its task and its input, then a program tells without being
run how long it takes: a task its delay, a composition the sum of its stages, a product the maximum
of its branches, and a functor name what its body takes.  `Program.Lasts` says so for the nodes of a
program, and writes down each call with its instant beside it; `Plan.duration` and `Plan.timetable`
compute both (`lasts_iff`).

A run that yields a value keeps to this timetable (`keeps_timetable_of_run`).  The invariant of its
processes is `Punctual`: what a process comes to, when it is over, and the calls that it has made
and has yet to make are at every instant what they were at the first one, unless something has
failed.
-/

namespace Taskflow

variable {σ ω : Type}

/-! ## How long a program takes -/

/-- A node that is started on a value at an instant yields a value after so many milliseconds, and
these are the calls that it makes. -/
inductive Program.Lasts (p : Program) (answers : Answers) (delay : String → Val → Nat) :
    Node → Val → Nat → Val → Nat → List CallRecord → Prop
  | task {id name span v t x} :
    p.functorBody name = none → answers name v = .ok x →
      Lasts p answers delay (.literal id name span) v t x (delay name v)
        [⟨name, v, t, some (t + delay name v, .ok)⟩]
  | named {id name span body v t x d calls} :
    p.functorBody name = some body → Lasts p answers delay body v t x d calls →
      Lasts p answers delay (.literal id name span) v t x d calls
  | composition {id outer inner span v t x y d d' calls calls'} :
    Lasts p answers delay inner v t x d calls → Lasts p answers delay outer x (t + d) y d' calls' →
      Lasts p answers delay (.composition id outer inner span) v t y (d + d') (calls ++ calls')
  | product {id left right span v t a b d d' calls calls'} :
    Lasts p answers delay left v t a d calls → Lasts p answers delay right v t b d' calls' →
      Lasts p answers delay (.product id left right span) v t (.pair a b) (max d d')
        (calls ++ calls')
  | functor {id name body span v t x d calls} :
    Lasts p answers delay body v t x d calls →
      Lasts p answers delay (.functor id name body span) v t x d calls

namespace Plan

variable (answers : Answers) (delay : String → Val → Nat)

/-- How long a plan takes on an input.  A stage that is not reached takes no time. -/
def duration : Plan → Val → Nat
  | .task site, v => delay site.name v
  | .named _ body, v => duration body v
  | .seq outer inner, v =>
    duration inner v +
      match evaluate answers inner v with
      | .ok x => duration outer x
      | .error _ => 0
  | .par left right, v => max (duration left v) (duration right v)

/-- The calls that a plan makes on an input from an instant on, if all of them yield values. -/
def timetable : Plan → Val → Nat → List CallRecord
  | .task site, v, t => [⟨site.name, v, t, some (t + delay site.name v, .ok)⟩]
  | .named _ body, v, t => timetable body v t
  | .seq outer inner, v, t =>
    timetable inner v t ++
      match evaluate answers inner v with
      | .ok x => timetable outer x (t + duration answers delay inner v)
      | .error _ => []
  | .par left right, v, t => timetable left v t ++ timetable right v t

/-- How long a stage takes once the one before it has come to `r`. -/
def durationAfter (plan : Plan) : Except RunError Val → Nat
  | .ok x => plan.duration answers delay x
  | .error _ => 0

/-- The calls of a stage that comes to its turn at an instant, once the one before it has come to
`r`. -/
def timetableAfter (plan : Plan) (t : Nat) : Except RunError Val → List CallRecord
  | .ok x => plan.timetable answers delay x t
  | .error _ => []

theorem duration_seq (outer inner : Plan) (v : Val) :
    (Plan.seq outer inner).duration answers delay v = inner.duration answers delay v +
      outer.durationAfter answers delay (inner.evaluate answers v) := by
  rw [duration]
  cases inner.evaluate answers v <;> rfl

theorem timetable_seq (outer inner : Plan) (v : Val) (t : Nat) :
    (Plan.seq outer inner).timetable answers delay v t = inner.timetable answers delay v t ++
      outer.timetableAfter answers delay (t + inner.duration answers delay v)
        (inner.evaluate answers v) := by
  rw [timetable]
  cases inner.evaluate answers v <;> rfl

end Plan

section Lasts

variable {p : Program} {answers : Answers} {delay : String → Val → Nat} {n : Node} {plan : Plan}
  {v x : Val} {t d : Nat} {calls : List CallRecord}

/-- A node that yields a value takes as long as its plan. -/
theorem Program.Lasts.eq (h : p.Lasts answers delay n v t x d calls)
    (resolves : p.Resolves n plan) :
    plan.evaluate answers v = .ok x ∧ d = plan.duration answers delay v ∧
      calls = plan.timetable answers delay v t := by
  induction h generalizing plan with
  | task none answer =>
    cases resolves with
    | task => exact ⟨by simp [Plan.evaluate, Answers.call, answer, Except.mapError], rfl, rfl⟩
    | named stands => cases none.symm.trans stands
  | named stands _ ih =>
    cases resolves with
    | task none => cases none.symm.trans stands
    | named stands' resolves =>
      obtain rfl := Option.some.inj (stands.symm.trans stands')
      rw [Plan.evaluate, Plan.duration, Plan.timetable]
      exact ih resolves
  | composition _ _ ihInner ihOuter =>
    cases resolves with
    | composition outer inner =>
      obtain ⟨value, rfl, rfl⟩ := ihInner inner
      obtain ⟨value', rfl, rfl⟩ := ihOuter outer
      rw [Plan.evaluate, Plan.duration_seq, Plan.timetable_seq, value]
      exact ⟨value', rfl, rfl⟩
  | product _ _ ihLeft ihRight =>
    cases resolves with
    | product left right =>
      obtain ⟨value, rfl, rfl⟩ := ihLeft left
      obtain ⟨value', rfl, rfl⟩ := ihRight right
      rw [Plan.evaluate, value, value']
      exact ⟨rfl, rfl, rfl⟩
  | functor _ ih =>
    cases resolves with
    | functor resolves => exact ih resolves

/-- A node whose plan yields a value takes as long as the plan says. -/
theorem Program.Resolves.lasts (resolves : p.Resolves n plan)
    (value : plan.evaluate answers v = .ok x) :
    p.Lasts answers delay n v t x (plan.duration answers delay v)
      (plan.timetable answers delay v t) := by
  induction resolves generalizing v x t with
  | @task id name span none =>
    refine .task none ?_
    rw [Plan.evaluate, Answers.call] at value
    exact Except.mapError_eq_ok_iff.1 value
  | named stands _ ih => exact .named stands (ih value)
  | @composition id outer inner span outerPlan innerPlan _ _ ihOuter ihInner =>
    obtain ⟨y, first, second⟩ := Except.bind_eq_ok_iff.1 value
    rw [Plan.duration_seq, Plan.timetable_seq, first]
    exact .composition (ihInner first) (ihOuter second)
  | @product id left right span leftPlan rightPlan _ _ ihLeft ihRight =>
    rw [Plan.evaluate] at value
    cases valueLeft : leftPlan.evaluate answers v with
    | error e =>
      rw [valueLeft] at value
      cases value
    | ok a =>
      cases valueRight : rightPlan.evaluate answers v with
      | error e =>
        rw [valueLeft, valueRight] at value
        cases value
      | ok b =>
        rw [valueLeft, valueRight] at value
        cases value
        exact .product (ihLeft valueLeft) (ihRight valueRight)
  | functor _ ih => exact .functor (ih value)

/-- The plan of a node computes how long the node takes, and its calls. -/
theorem Program.Resolves.lasts_iff (resolves : p.Resolves n plan) :
    p.Lasts answers delay n v t x d calls ↔
      plan.evaluate answers v = .ok x ∧ d = plan.duration answers delay v ∧
        calls = plan.timetable answers delay v t := by
  constructor
  · exact fun h ↦ h.eq resolves
  · rintro ⟨value, rfl, rfl⟩
    exact resolves.lasts value

end Lasts

/-! ## Processes in time -/

namespace Process

variable (answers : Answers) (delay : String → Val → Nat)

/-- When a process that waits is over, if everything yields values.  What is done already counts for
nothing. -/
def finish : Process → Nat
  | .done _ => 0
  | .call c => c.wake
  | .named _ body => finish body
  | .seq outer inner => finish inner + outer.durationAfter answers delay (inner.value answers)
  | .par _ left right => max (finish left) (finish right)

/-- The calls that a process has yet to make, if everything yields values. -/
def timetable : Process → List CallRecord
  | .done _ => []
  | .call _ => []
  | .named _ body => timetable body
  | .seq outer inner =>
    timetable inner ++
      outer.timetableAfter answers delay (inner.finish answers delay) (inner.value answers)
  | .par _ left right => timetable left ++ timetable right

/-- A process is not over before any of its calls. -/
theorem wake_le_finish {p : Process} {c : Call} (hc : c ∈ p.calls) :
    c.wake ≤ p.finish answers delay := by
  induction p with
  | done => cases hc
  | call d =>
    obtain rfl := List.mem_singleton.1 hc
    exact Nat.le_refl _
  | named site body ih => exact ih hc
  | seq outer inner ih => exact Nat.le_trans (ih hc) (Nat.le_add_right _ _)
  | par flag left right ihLeft ihRight =>
    rcases List.mem_append.1 hc with hc | hc
    · exact Nat.le_trans (ihLeft hc) (Nat.le_max_left _ _)
    · exact Nat.le_trans (ihRight hc) (Nat.le_max_right _ _)

end Process

/-- What the log will say of a call if it yields a value. -/
def CallRecord.foreseen (delay : String → Val → Nat) (r : CallRecord) : CallRecord :=
  match r.ending with
  | none => { r with ending := some (r.start + delay r.task r.input, .ok) }
  | some _ => r

/-- What the log will say of the calls in it. -/
def World.foreseen (delay : String → Val → Nat) (w : World σ ω) : List CallRecord :=
  w.calls.map (CallRecord.foreseen delay)

theorem World.SameLog.foreseen_eq {w w' : World σ ω} (same : w.SameLog w')
    (delay : String → Val → Nat) : w'.foreseen delay = w.foreseen delay := by
  rw [foreseen, foreseen, same.calls]

/-- How a process goes on at the instant `t` from a point where it was to come to `promise` at the
instant `finish`, while the log foresaw `log` and `todo` was yet to be called. -/
structure Punctual (answers : Answers) (delay : String → Val → Nat) (t : Nat)
    (promise : Except RunError Val) (finish : Nat) (todo log : List CallRecord) (p : Process)
    (log' : List CallRecord) : Prop where
  value : p.value answers = promise
  /-- what is over was over at `t` or before -/
  finish : max t (p.finish answers delay) = max t finish
  calls : (log' ++ p.timetable answers delay).Perm (log ++ todo)
  waits : ∀ c ∈ p.calls, t ≤ c.wake

namespace Punctual

variable {answers : Answers} {delay : String → Val → Nat} {t T T' : Nat}
  {r r' : Except RunError Val} {todo todo' log log' log'' : List CallRecord} {p : Process} {x : Val}
  {outer : Plan}

/-- A process that stands still. -/
theorem refl (waits : ∀ c ∈ p.calls, t ≤ c.wake) :
    Punctual answers delay t (p.value answers) (p.finish answers delay) (p.timetable answers delay)
      log p log :=
  ⟨rfl, rfl, List.Perm.refl _, waits⟩

/-- The first of two stages is over, and the second one starts on its value. -/
theorem seqOk (first : Punctual answers delay t r T todo log (.done (.ok x)) log') (late : t ≤ T)
    (second : Punctual answers delay t (outer.evaluate answers x)
      (t + outer.duration answers delay x) (outer.timetable answers delay x t) log' p log'') :
    Punctual answers delay t (r.bind (outer.evaluate answers))
      (T + outer.durationAfter answers delay r) (todo ++ outer.timetableAfter answers delay T r) log
      p log'' := by
  obtain rfl := first.value
  obtain rfl : T = t := by
    have now := first.finish
    rw [Process.finish] at now
    omega
  refine ⟨second.value, second.finish, second.calls.trans ?_, second.waits⟩
  have earlier := first.calls
  rw [Process.timetable, List.append_nil] at earlier
  rw [← List.append_assoc]
  exact earlier.append_right _

/-- The first of two stages goes on. -/
theorem seqWait (first : Punctual answers delay t r T todo log p log') (late : t ≤ T)
    (going : t ≤ p.finish answers delay) :
    Punctual answers delay t (r.bind (outer.evaluate answers))
      (T + outer.durationAfter answers delay r) (todo ++ outer.timetableAfter answers delay T r) log
      (.seq outer p) log' := by
  have same : p.finish answers delay = T := by
    have now := first.finish
    omega
  obtain rfl := first.value
  refine ⟨rfl, by rw [Process.finish, same], ?_, first.waits⟩
  rw [Process.timetable, same, ← List.append_assoc, ← List.append_assoc]
  exact first.calls.append_right _

/-- Both branches of a product go on, the right one from where the left one has got to. -/
theorem par {left right : Process} (flag : Bool)
    (first : Punctual answers delay t r T todo log left log')
    (second : Punctual answers delay t r' T' todo' log' right log'') :
    Punctual answers delay t (both r r') (max T T') (todo ++ todo') log (.par flag left right)
      log'' where
  value := by rw [Process.value, first.value, second.value]
  finish := by
    have := first.finish
    have := second.finish
    rw [Process.finish]
    omega
  calls := by
    have h := first.calls
    have h' := second.calls
    rw [List.perm_iff_count] at h h' ⊢
    intro k
    have count := h k
    have count' := h' k
    simp only [Process.timetable, List.count_append] at count count' ⊢
    omega
  waits c hc := by
    rcases List.mem_append.1 hc with hc | hc
    · exact first.waits c hc
    · exact second.waits c hc

/-- Both branches of a product are done. -/
theorem pair {a b : Val} (first : Punctual answers delay t r T todo log (.done (.ok a)) log')
    (second : Punctual answers delay t r' T' todo' log' (.done (.ok b)) log'') :
    Punctual answers delay t (both r r') (max T T') (todo ++ todo') log
      (.done (.ok (.pair a b))) log'' := by
  obtain ⟨value, finish, calls, -⟩ := first.par false second
  exact ⟨value, finish, calls, by simp [Process.calls]⟩

end Punctual

/-! ## Calls -/

section Calls

variable {e : Executor σ} {answers : Answers} {delay : String → Val → Nat} {s : σ} {w : World σ ω}
  {c : Call} {cs : List Call}

/-- A call that goes on has the reply that its task gives. -/
theorem Ledger.reply_eq (ledger : Ledger e s w cs) (stateless : e.Stateless delay answers)
    (hc : c ∈ cs) : c.reply =
      ⟨delay c.site.name c.input, false, false, answers c.site.name c.input, false⟩ := by
  obtain ⟨start, entry, -, reply⟩ := ledger.entry c hc
  rw [stateless.replies_eq, List.getElem?_map, World.made, List.getElem?_map, entry] at reply
  exact (Option.some.inj reply).symm

/-- A call that yields a value when it is due does what was foreseen. -/
theorem Ledger.foreseen_close (ledger : Ledger e s w (c :: cs))
    (stateless : e.Stateless delay answers) (due : c.wake = w.clock) {v : Val}
    (ok : c.reply.result = .ok v) :
    (w.close c.ticket c.outcome).foreseen delay = w.foreseen delay := by
  have reply := ledger.reply_eq stateless List.mem_cons_self
  obtain ⟨start, entry, wake, -⟩ := ledger.entry c List.mem_cons_self
  have outcome : c.outcome = .ok := by
    rw [Call.outcome, ok, reply]
    rfl
  refine List.ext_getElem? fun i ↦ ?_
  rw [World.foreseen, World.foreseen, List.getElem?_map, List.getElem?_map,
    World.getElem?_calls_close]
  split
  next here =>
    rw [← here, entry]
    rw [due, reply] at wake
    simp [CallRecord.foreseen, outcome, wake]
  next => rfl

end Calls

namespace Machine

variable {m : Machine σ ω} {answers : Answers} {delay : String → Val → Nat} {s : σ}
  {w w' : World σ ω} {p p' : Process} {F : List Call}

/-- A value that is not refused passes. -/
theorem observe_cases (m : Machine σ ω) (site : Site) (v : Val) (w : World σ ω) :
    (m.observe site v w).1.HasFailed ∨ (m.observe site v w).1 = .done (.ok v) := by
  unfold observe
  split
  · exact .inr rfl
  · exact .inl trivial

/-- A call that is due comes to the answer of its task. -/
theorem finish_punctual (stateless : m.executor.Stateless delay answers) {c : Call}
    (ledger : Ledger m.executor s w (c :: F)) (due : c.wake = w.clock) :
    (m.finish c w).1.HasFailed ∨
      Punctual answers delay w.clock (answers.call c.site.name c.input) w.clock []
        (w.foreseen delay) (m.finish c w).1 ((m.finish c w).2.foreseen delay) := by
  have reply := ledger.reply_eq stateless List.mem_cons_self
  unfold finish
  dsimp only
  cases result : c.reply.result with
  | error f => exact .inl trivial
  | ok v =>
    dsimp only
    set w₁ := (w.cancelBy c.reply).close c.ticket c.outcome with closed
    have same : w₁.foreseen delay = w.foreseen delay := by
      rw [closed, World.cancelBy_eq (by rw [reply]) (by rw [reply])]
      exact ledger.foreseen_close stateless due result
    have log := (m.observe_sameLog c.site v w₁).2.foreseen_eq delay
    refine (m.observe_cases c.site v w₁).imp_right fun done ↦ ?_
    have answer : answers.call c.site.name c.input = .ok v := by
      rw [reply] at result
      rw [Answers.call, Except.mapError_eq_ok_iff]
      exact result
    rw [done, answer, log, same]
    exact ⟨rfl, by simp [Process.finish], List.Perm.refl _, by simp [Process.calls]⟩

/-- A task that is called comes to its answer after its delay. -/
theorem Calls.punctual (stateless : m.executor.Stateless delay answers)
    (ledger : Ledger m.executor s w F) (going : w.stopped = false) {site : Site} {v : Val}
    (h : m.Calls site v w p w') :
    p.HasFailed ∨
      Punctual answers delay w.clock (answers.call site.name v) (w.clock + delay site.name v)
        [⟨site.name, v, w.clock, some (w.clock + delay site.name v, .ok)⟩] (w.foreseen delay)
        p (w'.foreseen delay) := by
  have asked := ledger.ask site v
  have wake : (m.called site v w).wake = w.clock + delay site.name v := by
    rw [called, stateless site.name v w.executor]
  have log : (m.asked site v w).foreseen delay = w.foreseen delay ++
      [⟨site.name, v, w.clock, some (w.clock + delay site.name v, .ok)⟩] := by
    simp [World.foreseen, Machine.asked, CallRecord.foreseen]
  cases h with
  | stopped stopped => cases going.symm.trans stopped
  | now _ due =>
    have now : w.clock + delay site.name v = w.clock :=
      wake.symm.trans (Nat.le_antisymm due (Nat.le_add_right _ _))
    refine (finish_punctual stateless asked (wake.trans now)).imp_right fun done ↦ ?_
    refine ⟨done.value, ?_, ?_, done.waits⟩
    · rw [now]
      exact done.finish
    · have calls := done.calls
      rwa [log, List.append_nil] at calls
  | wait =>
    refine .inr ⟨rfl, congrArg (max w.clock) wake, ?_, ?_⟩
    · rw [Process.timetable, List.append_nil]
      exact List.Perm.of_eq log
    · intro c hc
      obtain rfl := List.mem_singleton.1 hc
      exact Nat.le_add_right _ _

/-- A process that has got as far as it can and is not done is not over before its calls are. -/
theorem Settled.le_finish (settled : m.Settled p) (pending : p.isDone = false) {t : Nat}
    (waits : ∀ c ∈ p.calls, t ≤ c.wake) : t ≤ p.finish answers delay := by
  cases wake : p.nextWake with
  | none =>
    rw [settled.isDone wake] at pending
    cases pending
  | some t' =>
    obtain ⟨-, c, hc, -⟩ := Process.nextWake_spec wake
    exact Nat.le_trans (waits c hc) (Process.wake_le_finish answers delay hc)

/-- A functor name lets a value through at the instant at which its body has come to it. -/
theorem Leaves.punctual {site : Site} (h : m.Leaves site p w p' w') {t T : Nat}
    {r : Except RunError Val} {todo log : List CallRecord}
    (body : p.HasFailed ∨ Punctual answers delay t r T todo log p (w.foreseen delay)) :
    p'.HasFailed ∨ Punctual answers delay t r T todo log p' (w'.foreseen delay) := by
  cases h with
  | @ok v w =>
    refine (m.observe_cases site v w).imp_right fun done ↦ ?_
    rw [done, (m.observe_sameLog site v w).2.foreseen_eq]
    exact body.resolve_left id
  | error => exact .inl trivial
  | wait => exact body.imp_right fun ⟨value, finish, calls, waits⟩ ↦ ⟨value, finish, calls, waits⟩

/-- A product is over when both of its branches are. -/
theorem Joins.punctual {left right q : Process} (h : m.Joins w left right q w') {t T T' : Nat}
    {r r' : Except RunError Val} {todo todo' log log' : List CallRecord}
    (first : left.HasFailed ∨ Punctual answers delay t r T todo log left log')
    (second : right.HasFailed ∨
      Punctual answers delay t r' T' todo' log' right (w.foreseen delay)) :
    q.HasFailed ∨ Punctual answers delay t (both r r') (max T T') (todo ++ todo') log q
      (w'.foreseen delay) := by
  rcases first with failed | first
  · exact .inl (h.hasFailed (.inl failed))
  rcases second with failed | second
  · exact .inl (h.hasFailed (.inr failed))
  cases h with
  | ok => exact .inr (first.pair second)
  | left | right | dropLeft | dropRight => exact .inl trivial
  | wait => exact .inr (first.par _ second)

/-- A plan that is started keeps to its timetable. -/
theorem Starts.punctual (stateless : m.executor.Stateless delay answers) {plan : Plan} {v : Val}
    (h : m.Starts plan v w p w') (going : w.stopped = false)
    (ledger : Ledger m.executor s w F) :
    p.HasFailed ∨ Punctual answers delay w.clock (plan.evaluate answers v)
      (w.clock + plan.duration answers delay v) (plan.timetable answers delay v w.clock)
      (w.foreseen delay) p (w'.foreseen delay) := by
  induction h generalizing F with
  | task => exact (m.calls _ _ _).punctual stateless ledger going
  | named _ leaves ih => exact leaves.punctual (ih going ledger)
  | seqOk first _ ihInner ihOuter =>
    have inner := (ihInner going ledger).resolve_left id
    have going' := (first.scopes stateless.quiet).2.stopped_eq.trans going
    have outer := ihOuter going' (first.ledger ledger)
    rw [first.clock_eq] at outer
    rw [Plan.duration_seq, Plan.timetable_seq, ← Nat.add_assoc]
    exact outer.imp_right (inner.seqOk (Nat.le_add_right _ _))
  | seqError => exact .inl trivial
  | seqWait first pending ih =>
    rw [Plan.duration_seq, Plan.timetable_seq, ← Nat.add_assoc]
    refine (ih going ledger).imp_right fun inner ↦ ?_
    exact inner.seqWait (Nat.le_add_right _ _) (first.settled.le_finish pending inner.waits)
  | parEnds _ ends => exact .inl (hasFailed_of_ends ends)
  | @par left right v w l w₁ r w₂ p w₃ first _ _ joins ihLeft ihRight =>
    have inside : (w.enter false).stopped = false := (World.stopped_enter _).trans going
    have going' := (first.scopes stateless.quiet).2.stopped_eq.trans inside
    have ledger' : Ledger m.executor s (w.enter false) F := ledger.same ⟨rfl, rfl, rfl⟩
    have second := ihRight going' (first.ledger ledger')
    rw [first.clock_eq] at second
    rw [Plan.duration, ← Nat.add_max_add_left]
    exact joins.punctual (ihLeft inside ledger') second

/-- A process that is resumed when the first of its calls is over keeps to its timetable. -/
theorem Resumes.punctual (stateless : m.executor.Stateless delay answers)
    (h : m.Resumes m.settleDue p w p' w') (settled : m.Settled p) (quiet : p.Quiet)
    (going : w.stopped = false) (ledger : Ledger m.executor s w (p.calls ++ F))
    (waits : ∀ c ∈ p.calls, w.clock ≤ c.wake) :
    p'.HasFailed ∨ Punctual answers delay w.clock (p.value answers) (p.finish answers delay)
      (p.timetable answers delay) (w.foreseen delay) p' (w'.foreseen delay) := by
  have books := Ledger.bookkeeping m s
  have stands : ∀ {p p' : Process} {w w' : World σ ω}, m.Resumes m.settleDue p w p' w' →
      w'.clock = w.clock := fun h ↦ h.clock_eq m.clock_settleDue
  induction h generalizing F with
  | done => exact .inr (.refl (by simp [Process.calls]))
  | @call c w =>
    unfold settleDue
    split
    next due =>
      have now := Nat.le_antisymm due (waits c List.mem_cons_self)
      refine (finish_punctual stateless ledger now).imp_right fun done ↦ ?_
      have reply := ledger.reply_eq stateless List.mem_cons_self
      have finish := done.finish.trans (congrArg (max w.clock) now.symm)
      exact ⟨done.value, finish, done.calls, done.waits⟩
    next => exact .inr (.refl waits)
  | named _ leaves ih => exact leaves.punctual (ih settled.1 quiet going ledger waits)
  | seqOk first starts ih =>
    have inner := (ih settled.1 quiet going ledger waits).resolve_left id
    have going' := (first.scopes stateless.quiet settleDue_scopes quiet).2.stopped_eq.trans going
    have outer := starts.punctual stateless going'
      (first.keeps books (settleDue_keeps books) ledger)
    rw [stands first] at outer
    exact outer.imp_right (inner.seqOk (settled.1.le_finish settled.2 waits))
  | seqError => exact .inl trivial
  | seqWait first pending ih =>
    refine (ih settled.1 quiet going ledger waits).imp_right fun inner ↦ ?_
    have settled' := first.settled settled_settleDue
    exact inner.seqWait (settled.1.le_finish settled.2 waits)
      (settled'.le_finish pending inner.waits)
  | parEnds _ ends => exact .inl (hasFailed_of_ends ends)
  | @par flag left right w l w₁ r w₂ p w₃ first _ _ joins ihLeft ihRight =>
    obtain ⟨rfl, quietLeft, quietRight⟩ := quiet
    obtain ⟨settledLeft, settledRight, -⟩ := settled
    have inside : (w.enter false).stopped = false := (World.stopped_enter _).trans going
    have going' :=
      (first.scopes stateless.quiet settleDue_scopes quietLeft).2.stopped_eq.trans inside
    rw [Process.calls, List.append_assoc] at ledger
    have ledger' : Ledger m.executor s (w.enter false) _ := ledger.same ⟨rfl, rfl, rfl⟩
    have still := first.keeps books (settleDue_keeps books) ledger'
    have second := ihRight settledRight quietRight going'
      (still.perm (List.perm_append_comm_assoc _ _ _)) ?_
    · rw [stands first] at second
      refine joins.punctual (ihLeft settledLeft quietLeft inside ledger' ?_) second
      exact fun c hc ↦ waits c (List.mem_append_left _ hc)
    · rw [stands first]
      exact fun c hc ↦ waits c (List.mem_append_right _ hc)

end Machine

/-- An instant of a run keeps to the timetable that the run had before. -/
theorem Punctual.next {answers : Answers} {delay : String → Val → Nat} {r : Except RunError Val}
    {T t t' : Nat} {todo log log' log'' : List CallRecord} {p p' : Process}
    (earlier : Punctual answers delay t r T todo log p log') (notOver : t ≤ T)
    (wake : p.nextWake = some t')
    (later : Punctual answers delay t' (p.value answers) (p.finish answers delay)
      (p.timetable answers delay) log' p' log'') :
    Punctual answers delay t' r T todo log p' log'' ∧ t' ≤ T := by
  obtain ⟨-, c, hc, now⟩ := Process.nextWake_spec wake
  have notBefore : t ≤ t' := now ▸ earlier.waits c hc
  have goesOn : t' ≤ p.finish answers delay := now ▸ Process.wake_le_finish answers delay hc
  have same : p.finish answers delay = T := by
    have finish := earlier.finish
    omega
  rw [← same]
  exact ⟨⟨later.value.trans earlier.value, later.finish, later.calls.trans earlier.calls,
    later.waits⟩, goesOn⟩

/-- How a run has gone in which nothing has failed, if its plan was to take until `finish`. -/
structure Machine.OnTime (m : Machine σ ω) (answers : Answers) (delay : String → Val → Nat) (s : σ)
    (promise : Except RunError Val) (finish : Nat) (todo : List CallRecord) (p : Process)
    (w : World σ ω) : Prop where
  settled : m.Settled p
  ledger : Ledger m.executor s w p.calls
  punctual : Punctual answers delay w.clock promise finish todo [] p (w.foreseen delay)
  clock : w.clock ≤ finish

namespace Machine

variable {m : Machine σ ω} {answers : Answers} {delay : String → Val → Nat}

/-- A run in which nothing fails keeps to the timetable of its plan. -/
theorem run_onTime (stateless : m.executor.Stateless delay answers) (plan : Plan) (input : Val)
    (s : σ) (o : ω) (clock : Nat) :
    (Process.done (m.run plan input s o clock none).1).HasFailed ∨
      m.OnTime answers delay s (plan.evaluate answers input)
        (clock + plan.duration answers delay input) (plan.timetable answers delay input clock)
        (.done (m.run plan input s o clock none).1) (m.run plan input s o clock none).2 := by
  have books := Ledger.bookkeeping m s
  refine And.left (m.run_spec_of_quiet stateless.quiet (I := fun p w ↦ p.HasFailed ∨
    m.OnTime answers delay s (plan.evaluate answers input)
      (clock + plan.duration answers delay input) (plan.timetable answers delay input clock) p w)
    ?_ ?_)
  · intro p w starts
    have ledger := starts.ledger (.initial m s o clock none)
    rw [List.append_nil] at ledger
    have begins : w.clock = clock := starts.clock_eq
    refine (starts.punctual stateless rfl (.initial m s o clock none)).imp_right fun punctual ↦ ?_
    refine ⟨starts.settled, ledger, ?_, begins ▸ Nat.le_add_right _ _⟩
    rw [begins]
    exact punctual
  · rintro p w t p' w' (failed | ⟨settled, ledger, punctual, clock⟩) quiet going wake resumes
    · exact .inl (resumes.hasFailed failed)
    have ledger : Ledger m.executor s { w with clock := t } (p.calls ++ []) := by
      rw [List.append_nil]
      exact ledger.advance t w.cancelled
    have ledger' := resumes.keeps books (settleDue_keeps books) ledger
    rw [List.append_nil] at ledger'
    have now : w'.clock = t := resumes.clock_eq m.clock_settleDue
    refine (resumes.punctual stateless settled quiet going ledger
      (Process.nextWake_spec wake).1).imp_right fun later ↦ ?_
    obtain ⟨punctual, clock⟩ := punctual.next clock wake later
    rw [← now] at punctual clock
    exact ⟨resumes.settled settled_settleDue, ledger', punctual, clock⟩

end Machine

/-- A run that yields a value takes as long as its critical path.  Whatever watches it and whatever
the policy of products, if replies depend on the task and the input alone, then the program yields
that value after the time that its root takes, and the log has exactly the calls of its timetable,
each with the instants at which it begins and ends. -/
theorem keeps_timetable_of_run {text : String} {p : Program}
    (parsed : Program.parse text = .ok p) {m : Machine σ ω} {delay : String → Val → Nat}
    {answers : Answers} (stateless : m.executor.Stateless delay answers) {input v : Val} {s : σ}
    {o : ω} {clock : Nat} (ok : (m.run p.plan input s o clock none).1 = .ok v) :
    let ended := (m.run p.plan input s o clock none).2
    (∃ d calls, p.Lasts answers delay p.root input clock v d calls) ∧
      ∀ v' d calls, p.Lasts answers delay p.root input clock v' d calls →
        v' = v ∧ ended.clock = clock + d ∧ ended.calls.Perm calls := by
  intro ended
  have resolves := (Program.wellFormed_of_parse parsed).resolves_root
  have onTime := m.run_onTime stateless p.plan input s o clock
  rw [ok] at onTime
  obtain ⟨-, ledger, punctual, notOver⟩ := onTime.resolve_left id
  have value : p.plan.evaluate answers input = .ok v := punctual.value.symm
  refine ⟨⟨_, _, resolves.lasts value⟩, ?_⟩
  intro v' d calls lasts
  obtain ⟨value', rfl, rfl⟩ := resolves.lasts_iff.1 lasts
  refine ⟨Except.ok.inj (value'.symm.trans value), ?_, ?_⟩
  · have finish := punctual.finish
    rw [Process.finish] at finish
    change (m.run p.plan input s o clock none).2.clock = _
    omega
  · have foreseen : ended.foreseen delay = ended.calls := by
      have closed : ∀ r ∈ ended.calls, r.foreseen delay = id r := by
        intro r hr
        obtain ⟨ending, ended⟩ := Option.isSome_iff_exists.1 (ledger.ending_isSome hr)
        rw [CallRecord.foreseen, ended]
        rfl
      rw [World.foreseen, List.map_congr_left closed, List.map_id]
    have perm := punctual.calls
    rwa [Process.timetable, List.append_nil, List.nil_append, foreseen] at perm

/-- The longer branch of each product counts, once the right one and once the left one, and a
functor counts in each stage in which it is named. -/
theorem keeps_timetable_of_nested_products :
    let source := "f = c ∘ ((b ∘ a) × slow)\n(f × slow) ∘ f"
    let delay : String → Val → Nat := fun task _ ↦ if task = "slow" then 30 else 10
    let answers : Answers := fun _ _ ↦ .ok .unit
    let e : Executor Unit :=
      ⟨fun task v s ↦ (⟨delay task v, false, false, answers task v, false⟩, s)⟩
    ∃ p, Program.parse source = .ok p ∧ ∃ v,
      let ended := (Machine.mk e .blind .failFast).run p.plan .unit () () 5 none
      ended.1 = .ok v ∧ ended.2.clock = 5 + (30 + 10) + (30 + 10) ∧
        ∀ v' d calls, p.Lasts answers delay p.root .unit 5 v' d calls →
          v' = v ∧ ended.2.clock = 5 + d ∧ ended.2.calls.Perm calls := by
  intro source delay answers e
  let m : Machine Unit Unit := ⟨e, .blind, .failFast⟩
  obtain ⟨p, parsed, ok, clock⟩ : ∃ p, Program.parse source = .ok p ∧
      (m.run p.plan .unit () () 5 none).1 = .ok (.pair .unit .unit) ∧
      (m.run p.plan .unit () () 5 none).2.clock = 5 + (30 + 10) + (30 + 10) :=
    ⟨_, Except.eq_ok_get (by decide), by decide +kernel, by decide +kernel⟩
  have stateless : m.executor.Stateless delay answers := fun _ _ _ ↦ rfl
  exact ⟨p, parsed, _, ok, clock, (keeps_timetable_of_run parsed stateless ok).2⟩

end Taskflow
