import Taskflow.Proofs.Except
import Taskflow.Proofs.Program.Reordering
import Taskflow.Proofs.Run.Chains
import Taskflow.Proofs.Run.Resolution
import Taskflow.Proofs.Run.Sites
import Taskflow.Run.Script

/-!
# Compositions grouped in another way

Whether a chain of compositions is written `(h ∘ g) ∘ f` or `h ∘ (g ∘ f)` shows in the ids and types
of its nodes, and nowhere in a run that is not observed: the plans of both programs are regrouped to
the same one (`Regrouped.plan_eq`), so the runs are the same (`run_of_regrouped`).
-/

namespace Taskflow

/-- Whether two nodes are the same up to ids, places and the grouping of compositions. -/
inductive Node.Regrouped : Node → Node → Prop
  | literal {id id' name span span'} : Regrouped (.literal id name span) (.literal id' name span')
  | composition {id id' outer outer' inner inner' span span'} :
    Regrouped outer outer' → Regrouped inner inner' →
      Regrouped (.composition id outer inner span) (.composition id' outer' inner' span')
  | product {id id' left left' right right' span span'} :
    Regrouped left left' → Regrouped right right' →
      Regrouped (.product id left right span) (.product id' left' right' span')
  | functor {id id' name body body' span span'} :
    Regrouped body body' → Regrouped (.functor id name body span) (.functor id' name body' span')
  | assoc {h g f i j k l r s u v} :
    Regrouped (.composition i (.composition j h g r) f s)
      (.composition k h (.composition l g f u) v)
  | symm {n n'} : Regrouped n n' → Regrouped n' n
  | trans {n n' n''} : Regrouped n n' → Regrouped n' n'' → Regrouped n n''

/-- Whether two programs have the same functor names, in any order, and the roots and the bodies of
the functors are the same up to ids, places and the grouping of compositions. -/
structure Program.Regrouped (p q : Program) : Prop where
  bodies : ∀ name, Option.Rel Node.Regrouped (p.functorBody name) (q.functorBody name)
  root : p.root.Regrouped q.root

theorem Node.regrouped_bare (n : Node) : n.Regrouped n.bare := by
  induction n with
  | literal => exact .literal
  | composition _ _ _ _ ihOuter ihInner => exact .composition ihOuter ihInner
  | product _ _ _ _ ihLeft ihRight => exact .product ihLeft ihRight
  | functor _ _ _ _ ih => exact .functor ih

/-- Ids and places do not matter. -/
theorem Program.Regrouped.of_bare {p q : Program} (same : p.bare.Regrouped q.bare) :
    p.Regrouped q where
  bodies name := by
    have bodies := same.bodies name
    rw [functorBody_bare, functorBody_bare] at bodies
    generalize p.functorBody name = left at bodies
    generalize q.functorBody name = right at bodies
    cases left with
    | none =>
      cases right with
      | none => exact .none
      | some => cases bodies
    | some n =>
      cases right with
      | none => cases bodies
      | some n' =>
        cases bodies with
        | some same => exact .some (n.regrouped_bare.trans (same.trans n'.regrouped_bare.symm))
  root := p.root.regrouped_bare.trans (same.root.trans q.root.regrouped_bare.symm)

/-- With the names standing for the same plans, nodes that are grouped in another way have plans
that are grouped in another way. -/
theorem Node.Regrouped.ofNode_eq {n n' : Node} (same : n.Regrouped n') (functors : Table Plan) :
    (Plan.ofNode functors n).bare.regroup = (Plan.ofNode functors n').bare.regroup := by
  induction same with
  | @literal id id' name =>
    simp only [Plan.ofNode]
    cases functors.lookup name <;> rfl
  | composition _ _ ihOuter ihInner =>
    simp only [Plan.ofNode, Plan.bare, Plan.regroup, ihOuter, ihInner]
  | product _ _ ihLeft ihRight =>
    simp only [Plan.ofNode, Plan.bare, Plan.regroup, ihLeft, ihRight]
  | functor _ ih => simpa only [Plan.ofNode] using ih
  | assoc => simp only [Plan.ofNode, Plan.bare, Plan.regroup, Plan.after_assoc]
  | symm _ ih => exact ih.symm
  | trans _ _ ih ih' => exact ih.trans ih'

namespace Program

variable {p q : Program}

/-- A node has the same plan in both programs, up to ids, places and grouping. -/
theorem Resolves.regroup_eq (bodies : ∀ name, Option.Rel Node.Regrouped (p.functorBody name)
    (q.functorBody name)) (wf : q.WellFormed) {n : Node} {plan plan' : Plan}
    (h : p.Resolves n plan) (h' : q.Resolves n plan') :
    plan.bare.regroup = plan'.bare.regroup := by
  induction h generalizing plan' with
  | @task id name span none =>
    have other := bodies name
    cases h' with
    | task => rfl
    | named stands =>
      rw [none, stands] at other
      cases other
  | @named id name span body plan stands _ ih =>
    have other := bodies name
    cases h' with
    | task none =>
      rw [none, stands] at other
      cases other
    | @named _ _ _ body' plan' stands' resolves' =>
      rw [stands, stands'] at other
      cases other with
      | some same =>
        -- the body of the one program is resolved in the other one, and regrouped there
        have here := ih (wf.resolves_planOf body)
        have there := same.ofNode_eq q.functorPlans
        obtain rfl := resolves'.unique (wf.resolves_planOf body')
        rw [Plan.bare, Plan.bare, Plan.regroup, Plan.regroup, here, planOf, there, planOf]
  | composition _ _ ihOuter ihInner =>
    cases h' with
    | composition outer inner =>
      simp only [Plan.bare, Plan.regroup, ihOuter outer, ihInner inner]
  | product _ _ ihLeft ihRight =>
    cases h' with
    | product left right => simp only [Plan.bare, Plan.regroup, ihLeft left, ihRight right]
  | functor _ ih =>
    cases h' with
    | functor body => exact ih body

theorem Regrouped.plan_eq (same : p.Regrouped q) (wf : p.WellFormed) (wf' : q.WellFormed) :
    p.plan.bare.regroup = q.plan.bare.regroup :=
  (wf.resolves_root.regroup_eq same.bodies wf' (wf'.resolves_planOf p.root)).trans
    (same.root.ofNode_eq q.functorPlans)

end Program

/-- Two texts that are parsed, with the same functor names, in which the roots and the bodies of the
functors differ in the grouping of compositions alone.  A run that is not observed ends in the same
way and leaves the same world behind, with the same calls at the same instants and the same
cancellations, whatever carries out the tasks and whenever it is cancelled. -/
theorem run_of_regrouped {text text' : String} {p q : Program} (hp : Program.parse text = .ok p)
    (hq : Program.parse text' = .ok q) (same : p.Regrouped q) {σ : Type} (e : Executor σ)
    (policy : Policy) (input : Val) (s : σ) (clock : Nat) (cancelAfter : Option Nat) :
    let m : Machine σ Unit := ⟨e, .blind, policy⟩
    m.run p.plan input s () clock cancelAfter = m.run q.plan input s () clock cancelAfter := by
  have wf := Program.wellFormed_of_parse hp
  have wf' := Program.wellFormed_of_parse hq
  intro m
  calc
    m.run p.plan input s () clock cancelAfter
      = m.run p.plan.bare.regroup input s () clock cancelAfter := by
        rw [Machine.run_regroup, Machine.run_bare rfl]
    _ = m.run q.plan.bare.regroup input s () clock cancelAfter := by rw [same.plan_eq wf wf']
    _ = m.run q.plan input s () clock cancelAfter := by
        rw [Machine.run_regroup, Machine.run_bare rfl]

/-- A chain in a functor and one beside it, in opposite groupings, with tasks that take another time
when they are called again and one that cancels the product around it. -/
theorem run_of_regrouped_of_functor :
    let text := "f = (c ∘ b) ∘ a\nf × (d ∘ (a ∘ b))"
    let text' := "f = c ∘ (b ∘ a)\nf × ((d ∘ a) ∘ b)"
    let script : Script := [("a", [⟨2, false, false, .echo⟩, ⟨3, false, false, .echo⟩]),
      ("b", [⟨5, false, false, .echo⟩, ⟨4, false, false, .trail⟩]),
      ("c", [⟨30, false, false, .echo⟩]), ("d", [⟨4, true, false, .echo⟩])]
    let m : Machine (Table Nat) Unit := ⟨script.executor.within 50, .blind, .waitAll⟩
    ∃ p q, Program.parse text = .ok p ∧ Program.parse text' = .ok q ∧ p.Regrouped q ∧
      m.run p.plan .unit [] () 0 (some 40) = m.run q.plan .unit [] () 0 (some 40) ∧
      (m.run p.plan .unit [] () 0 (some 40)).2.calls.map (fun r ↦ (r.task, r.start, r.ending)) =
        [("a", 0, some (2, .ok)), ("b", 0, some (5, .ok)), ("b", 2, some (6, .ok)),
          ("a", 5, some (8, .ok)), ("c", 6, some (12, .dropped)), ("d", 8, some (12, .ok))] := by
  intro text text' script m
  let task (name : String) : Node := .literal 0 name .nowhere
  let after (outer inner : Node) : Node := .composition 0 outer inner .nowhere
  let program (body right : Node) : Program :=
    ⟨[], [("f", .functor 0 "f" body .nowhere)], .product 0 (task "f") right .nowhere, .nowhere⟩
  have hp := Except.eq_ok_get (x := Program.parse text) (by decide)
  have hq := Except.eq_ok_get (x := Program.parse text') (by decide)
  have same : (program (after (after (task "c") (task "b")) (task "a"))
      (after (task "d") (after (task "a") (task "b")))).Regrouped
      (program (after (task "c") (after (task "b") (task "a")))
        (after (after (task "d") (task "a")) (task "b"))) := by
    refine ⟨fun name ↦ ?_, .product .literal (.symm .assoc)⟩
    by_cases named : name = "f"
    · subst named
      exact .some .assoc
    · have other : (name == "f") = false := beq_eq_false_iff_ne.2 named
      simp only [Program.functorBody, program, List.lookup_cons, List.lookup_nil, other]
      exact .none
  have same := Program.Regrouped.of_bare (p := (Program.parse text).toOption.get (by decide))
    (q := (Program.parse text').toOption.get (by decide)) (by convert same <;> decide +kernel)
  exact ⟨_, _, hp, hq, same, run_of_regrouped hp hq same _ _ _ _ _ _, by decide +kernel⟩

end Taskflow
