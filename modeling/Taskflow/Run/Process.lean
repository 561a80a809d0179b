import Taskflow.Run.Executor
import Taskflow.Run.Plan

/-!
# Processes

A run in progress is a *process*: a plan of which parts are done, parts are waiting for calls and
parts have not begun.  Starting a plan carries it to the point where all that is left is waiting,
and resuming a process carries it there again after some of its calls have been settled.

Whether something is cancelled is kept in *scopes*.  The caller of the run has one and every product
opens one for its branches; a branch is cancelled if any scope around it is.

A product begins its left branch first, and it also resumes it first.  The second is a choice of this
model.  Of the calls that are over at one instant those of the left branch take effect first, and if
they cancel or end the product, those of the right branch are given up although their instant has
come.  A scheduler that polls waiting branches in turn can come to the right one first.  The order
makes a difference only where calls of both branches are over at the same instant.
-/

namespace Taskflow

/-- How a call went. -/
inductive Outcome where
  | ok
  | failed
  /-- it was given up before it could end -/
  | dropped
deriving DecidableEq, Repr

/-- A call in the log of a run. -/
structure CallRecord where
  task : String
  input : Val
  start : Nat
  /-- when and how it ended; nothing while it goes on -/
  ending : Option (Nat × Outcome)
deriving DecidableEq, Repr

/-- A call that goes on. -/
structure Call where
  /-- its place in the log -/
  ticket : Nat
  site : Site
  input : Val
  /-- the instant at which it will be over -/
  wake : Nat
  reply : Reply

namespace Call

/-- What the log says of a call that has gone its way. -/
def outcome (c : Call) : Outcome :=
  if c.reply.cutShort then .dropped
  else
    match c.reply.result with
    | .ok _ => .ok
    | .error _ => .failed

/-- Why the run fails if the call failed.  A task that stopped because it had to is not to blame. -/
def blame (c : Call) (failure : TaskFailure) (stopped : Bool) : RunError :=
  if failure = .cancelled ∧ stopped then .cancelled else .task c.site.name c.input failure

end Call

/-- All that a run changes. -/
structure World (σ ω : Type) where
  executor : σ
  observer : ω
  /-- the present instant, in milliseconds -/
  clock : Nat
  /-- in the order in which they began -/
  calls : List CallRecord
  /-- whether the caller's scope is cancelled -/
  cancelled : Bool
  /-- whether the scopes of the products around the present place are cancelled, the innermost
  first -/
  scopes : List Bool

namespace World

variable {σ ω : Type}

/-- Whether the present place is cancelled. -/
def stopped (w : World σ ω) : Bool := w.cancelled || w.scopes.any id

/-- Cancel the innermost scope. -/
def cancelScope (w : World σ ω) : World σ ω :=
  match w.scopes with
  | [] => { w with cancelled := true }
  | _ :: outer => { w with scopes := true :: outer }

/-- Cancel the caller's scope. -/
def cancelRun (w : World σ ω) : World σ ω := { w with cancelled := true }

/-- Cancel what a call cancels when it is over. -/
def cancelBy (w : World σ ω) (r : Reply) : World σ ω :=
  let w := if r.cancelsScope then w.cancelScope else w
  if r.cancelsRun then w.cancelRun else w

/-- Go into a product, whose scope is cancelled or not. -/
def enter (w : World σ ω) (flag : Bool) : World σ ω := { w with scopes := flag :: w.scopes }

/-- Whether the innermost product is cancelled. -/
def flag (w : World σ ω) : Bool := w.scopes.headD false

/-- Go out of the innermost product. -/
def leave (w : World σ ω) : World σ ω := { w with scopes := w.scopes.tail }

/-- Enter the end of a call into the log. -/
def close (w : World σ ω) (ticket : Nat) (outcome : Outcome) : World σ ω :=
  { w with calls := w.calls.modify ticket fun c ↦ { c with ending := some (w.clock, outcome) } }

@[simp] theorem clock_cancelScope (w : World σ ω) : w.cancelScope.clock = w.clock := by
  unfold cancelScope
  split <;> rfl

@[simp] theorem clock_cancelRun (w : World σ ω) : w.cancelRun.clock = w.clock := rfl

@[simp] theorem clock_cancelBy (w : World σ ω) (r : Reply) : (w.cancelBy r).clock = w.clock := by
  unfold cancelBy
  dsimp only
  split <;> split <;> simp

@[simp] theorem clock_enter (w : World σ ω) (b : Bool) : (w.enter b).clock = w.clock := rfl

@[simp] theorem clock_leave (w : World σ ω) : w.leave.clock = w.clock := rfl

@[simp] theorem clock_close (w : World σ ω) (n : Nat) (o : Outcome) :
    (w.close n o).clock = w.clock := rfl

end World

/-- A run in progress. -/
inductive Process where
  | done (result : Except RunError Val)
  | call (c : Call)
  /-- the body of a functor name -/
  | named (site : Site) (body : Process)
  /-- the first of two stages -/
  | seq (outer : Plan) (inner : Process)
  /-- both branches of a product, whose scope is cancelled or not -/
  | par (flag : Bool) (left right : Process)

namespace Process

/-- The calls that a process may still have to wait for. -/
def work : Process → Nat
  | .done _ => 0
  | .call _ => 1
  | .named _ body => body.work
  | .seq outer inner => outer.leaves + inner.work
  | .par _ left right => left.work + right.work

/-- The earliest instant at which a call is over. -/
def nextWake : Process → Option Nat
  | .done _ => none
  | .call c => some c.wake
  | .named _ body => body.nextWake
  | .seq _ inner => inner.nextWake
  | .par _ left right =>
    match left.nextWake, right.nextWake with
    | some a, some b => some (min a b)
    | some a, none => some a
    | none, b => b

/-- How a process ended.  One that goes on can only be given up. -/
def result : Process → Except RunError Val
  | .done r => r
  | _ => .error .cancelled

/-- Give up all calls of a process. -/
def drop {σ ω : Type} : Process → World σ ω → World σ ω
  | .done _, w => w
  | .call c, w => w.close c.ticket .dropped
  | .named _ body, w => body.drop w
  | .seq _ inner, w => inner.drop w
  | .par _ left right, w => right.drop (left.drop w)

@[simp] theorem clock_drop {σ ω : Type} (p : Process) (w : World σ ω) :
    (p.drop w).clock = w.clock := by
  induction p generalizing w <;> simp_all [drop]

end Process

/-- What carries out plans. -/
structure Machine (σ ω : Type) where
  executor : Executor σ
  observer : Observer ω
  policy : Policy

namespace Machine

variable {σ ω : Type} (m : Machine σ ω)

/-- A literal has yielded a value. -/
def observe (site : Site) (v : Val) (w : World σ ω) : Process × World σ ω :=
  match m.observer.observe site v w.observer with
  | (none, o) => (.done (.ok v), { w with observer := o })
  | (some e, o) => (.done (.error e), { w with observer := o })

/-- A call is over. -/
def finish (c : Call) (w : World σ ω) : Process × World σ ω :=
  let w := (w.cancelBy c.reply).close c.ticket c.outcome
  match c.reply.result with
  | .ok v => m.observe c.site v w
  | .error f => (.done (.error (c.blame f w.stopped)), w)

/-- Call a task. -/
def begin (site : Site) (input : Val) (w : World σ ω) : Process × World σ ω :=
  if w.stopped then (.done (.error .cancelled), w)
  else
    let (reply, s) := m.executor.respond site.name input w.executor
    let c : Call := ⟨w.calls.length, site, input, w.clock + reply.delay, reply⟩
    let w := { w with executor := s, calls := w.calls ++ [⟨site.name, input, w.clock, none⟩] }
    if reply.delay = 0 then m.finish c w else (.call c, w)

/-- What becomes of a functor name when its body has got this far. -/
def leaveName (site : Site) : Process × World σ ω → Process × World σ ω
  | (.done (.ok v), w) => m.observe site v w
  | (.done (.error e), w) => (.done (.error e), w)
  | (p, w) => (.named site p, w)

/-- Whether a product ends as soon as a branch has got this far. -/
def ends : Process → Bool
  | .done (.error _) => m.policy == .failFast
  | _ => false

/-- What becomes of a product when its branches have got this far; its scope is the innermost. -/
def join (left right : Process) (w : World σ ω) : Process × World σ ω :=
  match left, right with
  | .done (.ok a), .done (.ok b) => (.done (.ok (.pair a b)), w.leave)
  | .done (.error e), .done _ => (.done (.error e), w.leave)
  | .done (.ok _), .done (.error e) => (.done (.error e), w.leave)
  | .done (.error e), right =>
    match m.policy with
    | .failFast => (.done (.error e), (right.drop w).leave)
    | .waitAll => (.par w.flag (.done (.error e)) right, w.leave)
  | left, .done (.error e) =>
    match m.policy with
    | .failFast => (.done (.error e), (left.drop w).leave)
    | .waitAll => (.par w.flag left (.done (.error e)), w.leave)
  | left, right => (.par w.flag left right, w.leave)

/-- Begin a plan and go on until everything that has begun is done or waits for a call.  The right
branch of a product does not begin if the left one ends the product at once. -/
def start : Plan → Val → World σ ω → Process × World σ ω
  | .task site, v, w => m.begin site v w
  | .named site body, v, w => m.leaveName site (start body v w)
  | .seq outer inner, v, w =>
    match start inner v w with
    | (.done (.ok x), w) => start outer x w
    | (.done (.error e), w) => (.done (.error e), w)
    | (p, w) => (.seq outer p, w)
  | .par left right, v, w =>
    let (l, w) := start left v (w.enter false)
    if m.ends l then (l, w.leave)
    else
      let (r, w) := start right v w
      m.join l r w

/-- Settle calls by `settle` and go on until everything that has begun is done or waits again.  Of two
branches the left one goes first, at every instant. -/
def resume (settle : Call → World σ ω → Process × World σ ω) :
    Process → World σ ω → Process × World σ ω
  | .done r, w => (.done r, w)
  | .call c, w => settle c w
  | .named site body, w => m.leaveName site (resume settle body w)
  | .seq outer inner, w =>
    match resume settle inner w with
    | (.done (.ok x), w) => m.start outer x w
    | (.done (.error e), w) => (.done (.error e), w)
    | (p, w) => (.seq outer p, w)
  | .par flag left right, w =>
    let (l, w) := resume settle left (w.enter flag)
    if m.ends l then (l, (right.drop w).leave)
    else
      let (r, w) := resume settle right w
      m.join l r w

/-- A call is over if its instant has come. -/
def settleDue (c : Call) (w : World σ ω) : Process × World σ ω :=
  if c.wake ≤ w.clock then m.finish c w else (.call c, w)

/-- A call is given up if a scope around it is cancelled. -/
def settleStopped (c : Call) (w : World σ ω) : Process × World σ ω :=
  if w.stopped then (.done (.error .cancelled), w.close c.ticket .dropped) else (.call c, w)

/-- A call in a cancelled scope is given up even at the instant at which it would be over. -/
def settle (c : Call) (w : World σ ω) : Process × World σ ω :=
  if w.stopped then settleStopped c w else m.settleDue c w

/-- Give up every call in a cancelled scope. -/
def sweep (p : Process) (w : World σ ω) : Process × World σ ω := m.resume settleStopped p w

/-- Let the calls that are over at the present instant take effect. -/
def tick (p : Process) (w : World σ ω) : Process × World σ ω :=
  let (p, w) := m.resume m.settle p w
  m.sweep p w

end Machine

end Taskflow
