import Taskflow.Proofs.Grammar.Programs
import Taskflow.Proofs.Run.Counting
import Taskflow.Proofs.Run.Resolution
import Taskflow.Run.Script

/-!
# Evaluation ends

Evaluating a node evaluates its operands, or the body that a functor name stands for, which stands
in another tree.  Still it ends: the functors that a node refers to stand before some place of the
table, and the body of a functor refers to functors before that one alone.  So each evaluation that
another one begins is of a node that refers to an earlier part of the table, or to the same part and
is smaller.  `Machine.eval` recurs along this order, from node to node and through the table of
names, and it is what starting the plan of a node does (`eval_eq_start`).

A run also goes on with what it left waiting.  All that it evaluates and calls is bounded by the
plan (`evaluation_ends`).
-/

namespace Taskflow

/-! ## Places in the functor table -/

namespace Program

variable {p : Program} {k : Nat} {n : Node}

/-- The place of a functor in the table. -/
def place (p : Program) (name : String) : Nat := (p.functors.map (·.1)).idxOf name

/-- Whether the functors that a node refers to stand before the place `k`. -/
def Within (p : Program) (k : Nat) (n : Node) : Prop :=
  ∀ name ∈ n.references, p.isFunctor name = true → p.place name < k

namespace Within

variable {id : NodeId} {a b : Node} {span : Span}

theorem outer (within : p.Within k (.composition id a b span)) : p.Within k a :=
  fun name mem ↦ within name (List.mem_append_left _ mem)

theorem inner (within : p.Within k (.composition id a b span)) : p.Within k b :=
  fun name mem ↦ within name (List.mem_append_right _ mem)

theorem left (within : p.Within k (.product id a b span)) : p.Within k a :=
  fun name mem ↦ within name (List.mem_append_left _ mem)

theorem right (within : p.Within k (.product id a b span)) : p.Within k b :=
  fun name mem ↦ within name (List.mem_append_right _ mem)

theorem body {name : String} (within : p.Within k (.functor id name a span)) : p.Within k a :=
  within

end Within

namespace WellFormed

/-- The table has a functor at its place. -/
theorem getElem?_place (wf : p.WellFormed) {name : String} (h : p.isFunctor name = true) :
    ∃ id body span, p.functors[p.place name]? = some (name, .functor id name body span) ∧
      p.functorBody name = some body := by
  rw [wf.isFunctor_eq, Option.isSome_iff_exists] at h
  obtain ⟨body, stands⟩ := h
  obtain ⟨id, span, mem⟩ := wf.functorBody_eq_some_iff.1 stands
  refine ⟨id, body, span, ?_, stands⟩
  obtain ⟨i, at'⟩ := List.mem_iff_getElem?.1 mem
  obtain ⟨hi, entry⟩ := List.getElem?_eq_some_iff.1 at'
  have bound : i < (p.functors.map (·.1)).length := by simpa using hi
  have key : (p.functors.map (·.1))[i] = name := by rw [List.getElem_map, entry]
  have here : p.place name = i := by rw [place, ← key, wf.distinct.idxOf_getElem]
  rw [here]
  exact at'

/-- A functor stands for a node that refers to earlier ones. -/
theorem within_of_getElem? (wf : p.WellFormed) {f : String × Node} (h : p.functors[k]? = some f) :
    p.Within k f.2 := by
  intro name mem functor
  obtain ⟨id, body, span, at', -⟩ := wf.getElem?_place functor
  exact wf.lt_of_mem_references h at' mem

/-- The same of the root, which stands behind all functors. -/
theorem within_of_getElem?_append (wf : p.WellFormed)
    (h : (p.functors.map (·.2) ++ [p.root])[k]? = some n) : p.Within k n := by
  rw [List.getElem?_append] at h
  split at h
  next =>
    rw [List.getElem?_map] at h
    obtain ⟨f, at', rfl⟩ := Option.map_eq_some_iff.1 h
    exact wf.within_of_getElem? at'
  next le =>
    intro name _ functor
    obtain ⟨id, body, span, at', -⟩ := wf.getElem?_place functor
    have := (List.getElem?_eq_some_iff.1 at').1
    rw [List.length_map] at le
    omega

theorem within_functorBody (wf : p.WellFormed) {name : String} {body : Node}
    (h : p.functorBody name = some body) : p.Within (p.place name) body := by
  have functor : p.isFunctor name = true := by rw [wf.isFunctor_eq, h]; rfl
  obtain ⟨id, body', span, at', stands⟩ := wf.getElem?_place functor
  obtain rfl := Option.some.inj (h.symm.trans stands)
  exact wf.within_of_getElem? at'

/-- The body of a functor that a node names refers to an earlier part of the table. -/
theorem place_lt (wf : p.WellFormed) {id : NodeId} {name : String} {span : Span} {body : Node}
    (within : p.Within k (.literal id name span)) (h : p.functorBody name = some body) :
    p.place name < k := by
  refine within name (List.mem_singleton.2 rfl) ?_
  rw [wf.isFunctor_eq, h]
  rfl

/-- What a node depends on refers to an earlier part of the table, or to the same part and is
smaller. -/
theorem exists_within_of_mem_dependencies (wf : p.WellFormed) (within : p.Within k n) {m : Node}
    (h : m ∈ n.dependencies p.functorBody) :
    ∃ k', p.Within k' m ∧ Prod.Lex (· < ·) (· < ·) (k', sizeOf m) (k, sizeOf n) := by
  cases n with
  | literal id name span =>
    have stands := Option.mem_toList.1 h
    exact ⟨_, wf.within_functorBody stands, .left _ _ (wf.place_lt within stands)⟩
  | composition id outer inner span =>
    rcases List.mem_pair.1 h with rfl | rfl
    · exact ⟨k, within.inner, .right _ (by simp; omega)⟩
    · exact ⟨k, within.outer, .right _ (by simp; omega)⟩
  | product id left right span =>
    rcases List.mem_pair.1 h with rfl | rfl
    · exact ⟨k, within.left, .right _ (by simp; omega)⟩
    · exact ⟨k, within.right, .right _ (by simp; omega)⟩
  | functor id name body span =>
    obtain rfl := List.mem_singleton.1 h
    exact ⟨k, within.body, .right _ (by simp; omega)⟩

end WellFormed

end Program

/-! ## Evaluation by descent -/

namespace Machine

variable {σ ω : Type} (m : Machine σ ω) {p : Program}

/-- Evaluate a node that refers to functors before the place `k`, and go on until everything that
has begun is done or waits for a call.  A functor name is looked up in the program. -/
def eval (wf : p.WellFormed) (k : Nat) (n : Node) (within : p.Within k n) (v : Val)
    (w : World σ ω) : Process × World σ ω :=
  match n with
  | .literal id name span =>
    match stands : p.functorBody name with
    | some body =>
      m.leaveName ⟨id, name, span⟩
        (eval wf (p.place name) body (wf.within_functorBody stands) v w)
    | none => m.begin ⟨id, name, span⟩ v w
  | .composition _ outer inner _ =>
    match eval wf k inner within.inner v w with
    | (.done (.ok x), w) => eval wf k outer within.outer x w
    | (.done (.error e), w) => (.done (.error e), w)
    | (q, w) => (.seq (p.planOf outer) q, w)
  | .product _ left right _ =>
    let (l, w) := eval wf k left within.left v (w.enter false)
    if m.ends l then (l, w.leave)
    else
      let (r, w) := eval wf k right within.right v w
      m.join l r w
  | .functor _ _ body _ => eval wf k body within.body v w
termination_by (k, sizeOf n)
decreasing_by
  · exact .left _ _ (wf.place_lt within stands)
  all_goals exact .right _ (by simp; omega)

variable {m}

/-- Evaluating a node is starting any plan that resolves it, from whatever place. -/
theorem eval_eq_start (wf : p.WellFormed) {n : Node} {plan : Plan} (resolves : p.Resolves n plan)
    (k : Nat) (within : p.Within k n) (v : Val) (w : World σ ω) :
    m.eval wf k n within v w = m.start plan v w := by
  induction resolves generalizing k v w with
  | task none =>
    rw [eval, start]
    split
    next stands => cases none.symm.trans stands
    next => rfl
  | named stands _ ih =>
    rw [eval, start]
    split
    next stands' =>
      obtain rfl := Option.some.inj (stands.symm.trans stands')
      rw [ih]
    next none => cases none.symm.trans stands
  | composition outer _ ihOuter ihInner =>
    obtain rfl := (wf.resolves_planOf _).unique outer
    rw [eval, start, ihInner]
    split <;> simp_all
  | product _ _ ihLeft ihRight =>
    rw [eval, start]
    simp only [ihLeft, ihRight]
  | functor _ ih => rw [eval, ih]

end Machine

/-- The functors of a parsed program are acyclic, so evaluating its root or a declaration ends.

A functor name below a functor stands for an earlier one.  What a node depends on refers to an
earlier part of the functor table, or to the same part and is smaller.  The evaluation that recurs
along this order is the one that runs begin with.  A run of the root or of a declaration evaluates
no more nodes than its plan has and calls no more tasks, and every call has ended in the end. -/
theorem evaluation_ends {p : Program} {text : String} (parsed : Program.parse text = .ok p) :
    (∀ (i : Nat) (f : String × Node), p.functors[i]? = some f →
      ∀ name ∈ f.2.references, p.isFunctor name = true →
        ∃ j < i, ∃ declaration : Node, p.functors[j]? = some (name, declaration)) ∧
    (∀ k n m, p.Within k n → m ∈ n.dependencies p.functorBody →
      ∃ k', p.Within k' m ∧ Prod.Lex (· < ·) (· < ·) (k', sizeOf m) (k, sizeOf n)) ∧
    ∃ wf : p.WellFormed, ∀ k n, (p.functors.map (·.2) ++ [p.root])[k]? = some n →
      ∃ within : p.Within k n, ∀ (σ ω : Type) (m : Machine σ ω),
        (∀ v w, m.eval wf k n within v w = m.start (p.planOf n) v w) ∧
        ∀ input s o clock cancelAfter,
          m.evaluatedIn (p.planOf n) input s o clock cancelAfter ≤ (p.planOf n).size ∧
          (m.run (p.planOf n) input s o clock cancelAfter).2.calls.length ≤ (p.planOf n).leaves ∧
          ∀ call ∈ (m.run (p.planOf n) input s o clock cancelAfter).2.calls,
            call.ending.isSome := by
  have wf := Program.wellFormed_of_parse parsed
  refine ⟨fun i f at' name mem functor ↦ ?_,
    fun k n m within ↦ wf.exists_within_of_mem_dependencies within, wf, fun k n at' ↦ ?_⟩
  · obtain ⟨id, body, span, stands, -⟩ := wf.getElem?_place functor
    exact ⟨_, wf.within_of_getElem? at' name mem functor, _, stands⟩
  · refine ⟨wf.within_of_getElem?_append at', fun σ ω m ↦
      ⟨fun v w ↦ ?_, fun input s o clock cancelAfter ↦ ?_⟩⟩
    · exact m.eval_eq_start wf (wf.resolves_planOf n) k _ v w
    · exact ⟨m.evaluatedIn_le _ _ _ _ _ _, m.length_calls_run_le _ _ _ _ _ _,
        fun call mem ↦ (Ledger.of_run m _ _ _ _ _ _).ending_isSome mem⟩

/-- A functor that is evaluated twice through another one, whose declaration stands behind a
signature.  The second time it fails, so a task of the plan is never called. -/
theorem evaluation_ends_of_nested_functors :
    let script : Script := [("a", [⟨10, false, false, .echo⟩, ⟨5, false, false, .fail "no"⟩])]
    let m : Machine (Table Nat) Unit := ⟨script.executor.within 50, .blind, .waitAll⟩
    ∃ p, Program.parse "f = a\nb :: X -> X\ng = f ∘ f\nb ∘ g" = .ok p ∧
      m.evaluatedIn p.plan .unit [] () 0 none ≤ p.plan.size ∧
      (m.run p.plan .unit [] () 0 none).2.calls.length ≤ p.plan.leaves ∧
      p.plan.size = 8 ∧ p.plan.leaves = 3 ∧ m.evaluatedIn p.plan .unit [] () 0 none = 7 ∧
      (m.run p.plan .unit [] () 0 none).2.calls.length = 2 := by
  intro script m
  have parsed :=
    Except.eq_ok_get (x := Program.parse "f = a\nb :: X -> X\ng = f ∘ f\nb ∘ g") (by decide)
  obtain ⟨-, -, wf, all⟩ := evaluation_ends parsed
  obtain ⟨within, bounds⟩ := all 2 _ rfl
  obtain ⟨nodes, calls, -⟩ := (bounds _ _ m).2 .unit [] () 0 none
  refine ⟨_, parsed, nodes, calls, ?_⟩
  decide +kernel

end Taskflow
