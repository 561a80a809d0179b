import Taskflow.Proofs.Run.Resolution
import Taskflow.Run.Process

/-!
# Running in sequence

`Program.Evaluates` is a program read without a clock: a task answers at once, a composition puts
one answer into the next stage, and a product takes its left branch, then its right one, on the same
input.  `Plan.evaluate` computes it (`evaluates_iff`), and `Plan.demands` lists the calls that are
made on the way.

Both are continued to processes: `Process.value` is what a process will come to if nothing is given
up, and `Process.demands` is what it has yet to call.
-/

namespace Taskflow

/-- What tasks answer, if that depends on their name and their input alone. -/
abbrev Answers := String → Val → Except TaskFailure Val

/-- What a run makes of the answer of a task. -/
def Answers.call (answers : Answers) (task : String) (input : Val) : Except RunError Val :=
  (answers task input).mapError (.task task input)

/-- What a node comes to on an input. -/
inductive Program.Evaluates (p : Program) (answers : Answers) :
    Node → Val → Except RunError Val → Prop
  | task {id name span v} :
    p.functorBody name = none → Evaluates p answers (.literal id name span) v (answers.call name v)
  | named {id name span body v r} :
    p.functorBody name = some body → Evaluates p answers body v r →
      Evaluates p answers (.literal id name span) v r
  | composition {id outer inner span v x r} :
    Evaluates p answers inner v (.ok x) → Evaluates p answers outer x r →
      Evaluates p answers (.composition id outer inner span) v r
  | compositionError {id outer inner span v e} :
    Evaluates p answers inner v (.error e) →
      Evaluates p answers (.composition id outer inner span) v (.error e)
  | product {id left right span v a b} :
    Evaluates p answers left v (.ok a) → Evaluates p answers right v (.ok b) →
      Evaluates p answers (.product id left right span) v (.ok (.pair a b))
  | productLeft {id left right span v e} :
    Evaluates p answers left v (.error e) →
      Evaluates p answers (.product id left right span) v (.error e)
  | productRight {id left right span v a e} :
    Evaluates p answers left v (.ok a) → Evaluates p answers right v (.error e) →
      Evaluates p answers (.product id left right span) v (.error e)
  | functor {id name body span v r} :
    Evaluates p answers body v r → Evaluates p answers (.functor id name body span) v r

/-- What a product makes of what its branches come to; of two errors the left one counts. -/
def both : Except RunError Val → Except RunError Val → Except RunError Val
  | .ok a, .ok b => .ok (.pair a b)
  | .error e, _ => .error e
  | .ok _, .error e => .error e

/-- What is called once `r` is there, if it is a value. -/
def onValue (r : Except RunError Val) (f : Val → List (String × Val)) : List (String × Val) :=
  match r with
  | .ok x => f x
  | .error _ => []

namespace Plan

variable (answers : Answers)

/-- What a plan comes to on an input. -/
def evaluate : Plan → Val → Except RunError Val
  | .task site, v => answers.call site.name v
  | .named _ body, v => evaluate body v
  | .seq outer inner, v => (evaluate inner v).bind (evaluate outer)
  | .par left right, v => both (evaluate left v) (evaluate right v)

/-- The calls that a plan makes on an input if no product gives a branch up. -/
def demands : Plan → Val → List (String × Val)
  | .task site, v => [(site.name, v)]
  | .named _ body, v => demands body v
  | .seq outer inner, v => demands inner v ++ onValue (evaluate answers inner v) (demands outer)
  | .par left right, v => demands left v ++ demands right v

end Plan

namespace Process

variable (answers : Answers)

/-- What a process will come to if no product gives a branch up. -/
def value : Process → Except RunError Val
  | .done r => r
  | .call c => answers.call c.site.name c.input
  | .named _ body => value body
  | .seq outer inner => (value inner).bind (outer.evaluate answers)
  | .par _ left right => both (value left) (value right)

/-- The calls that a process has yet to make if no product gives a branch up. -/
def demands : Process → List (String × Val)
  | .done _ => []
  | .call _ => []
  | .named _ body => demands body
  | .seq outer inner => demands inner ++ onValue (value answers inner) (outer.demands answers)
  | .par _ left right => demands left ++ demands right

end Process

variable {p : Program} {answers : Answers}

/-- A node comes to something on every input: to what its plan computes. -/
theorem Program.Resolves.evaluates {n : Node} {plan : Plan} (h : p.Resolves n plan) (v : Val) :
    p.Evaluates answers n v (plan.evaluate answers v) := by
  induction h generalizing v with
  | task none => exact .task none
  | named stands _ ih => exact .named stands (ih v)
  | composition _ _ ihOuter ihInner =>
    have first := ihInner v
    rw [Plan.evaluate]
    cases value : Plan.evaluate answers _ v with
    | ok x =>
      rw [value] at first
      exact .composition first (ihOuter x)
    | error e =>
      rw [value] at first
      exact .compositionError first
  | product _ _ ihLeft ihRight =>
    have left := ihLeft v
    have right := ihRight v
    rw [Plan.evaluate]
    cases valueLeft : Plan.evaluate answers _ v with
    | ok a =>
      rw [valueLeft] at left
      cases valueRight : Plan.evaluate answers _ v with
      | ok b =>
        rw [valueRight] at right
        exact .product left right
      | error e =>
        rw [valueRight] at right
        exact .productRight left right
    | error e =>
      rw [valueLeft] at left
      exact .productLeft left
  | functor _ ih => exact .functor (ih v)

/-- A node comes to nothing else than what its plan computes. -/
theorem Program.Evaluates.evaluate_eq {n : Node} {v : Val} {r : Except RunError Val}
    (h : p.Evaluates answers n v r) {plan : Plan} (resolves : p.Resolves n plan) :
    plan.evaluate answers v = r := by
  induction h generalizing plan with
  | task none =>
    cases resolves with
    | task _ => rfl
    | named some _ => cases none.symm.trans some
  | named stands _ ih =>
    cases resolves with
    | task none => cases none.symm.trans stands
    | named stands' resolves =>
      obtain rfl := Option.some.inj (stands.symm.trans stands')
      rw [Plan.evaluate]
      exact ih resolves
  | composition _ _ ihInner ihOuter =>
    cases resolves with
    | composition outer inner =>
      rw [Plan.evaluate, ihInner inner]
      exact ihOuter outer
  | compositionError _ ih =>
    cases resolves with
    | composition outer inner =>
      rw [Plan.evaluate, ih inner]
      rfl
  | product _ _ ihLeft ihRight | productRight _ _ ihLeft ihRight =>
    cases resolves with
    | product left right =>
      rw [Plan.evaluate, ihLeft left, ihRight right]
      rfl
  | productLeft _ ih =>
    cases resolves with
    | product left right =>
      rw [Plan.evaluate, ih left]
      rfl
  | functor _ ih =>
    cases resolves with
    | functor resolves => exact ih resolves

/-- The plan of a node computes what the node comes to. -/
theorem Program.Resolves.evaluates_iff {n : Node} {plan : Plan} (h : p.Resolves n plan) {v : Val}
    {r : Except RunError Val} :
    p.Evaluates answers n v r ↔ plan.evaluate answers v = r := by
  constructor
  · exact fun evaluates ↦ evaluates.evaluate_eq h
  · rintro rfl
    exact h.evaluates v

end Taskflow
