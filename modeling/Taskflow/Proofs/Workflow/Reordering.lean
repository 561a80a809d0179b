import Taskflow.Proofs.Run.Resolution
import Taskflow.Proofs.Run.Sites
import Taskflow.Proofs.Typing.Reordering
import Taskflow.Run.Script

/-!
# Items in another order

As long as no functor is used before its declaration, the items of a text can be in any order.  Ids
and places of nodes change with it, and so does the order in which functors are visited; but what a
check says apart from ids and places, and all that a run does, stay the same
(`check_and_run_of_reordered`).
-/

namespace Taskflow

open Grammar

/-- Nodes that are the same up to ids and places, in programs in which names stand for the same up
to ids and places, have plans that are the same up to ids and places. -/
theorem Program.Resolves.bare_eq {p q : Program}
    (bodies : ∀ name, (p.functorBody name).map Node.bare = (q.functorBody name).map Node.bare)
    {n m : Node} {plan plan' : Plan} (h : p.Resolves n plan) (h' : q.Resolves m plan')
    (same : n.bare = m.bare) : plan.bare = plan'.bare := by
  induction h generalizing m plan' with
  | @task id name span none =>
    have other := bodies name
    cases h' with
    | task =>
      cases same
      rfl
    | named stands =>
      cases same
      rw [none, stands] at other
      cases other
    | _ => cases same
  | @named id name span body plan stands resolves ih =>
    have other := bodies name
    cases h' with
    | task none =>
      cases same
      rw [none, stands] at other
      cases other
    | named stands' resolves' =>
      cases same
      rw [stands, stands'] at other
      rw [Plan.bare, Plan.bare, ih resolves' (Option.some.inj other)]
      rfl
    | _ => cases same
  | composition _ _ ihOuter ihInner =>
    cases h' with
    | composition outer inner =>
      obtain ⟨-, sameOuter, sameInner, -⟩ := Node.composition.inj same
      rw [Plan.bare, Plan.bare, ihOuter outer sameOuter, ihInner inner sameInner]
    | _ => cases same
  | product _ _ ihLeft ihRight =>
    cases h' with
    | product left right =>
      obtain ⟨-, sameLeft, sameRight, -⟩ := Node.product.inj same
      rw [Plan.bare, Plan.bare, ihLeft left sameLeft, ihRight right sameRight]
    | _ => cases same
  | functor _ ih =>
    cases h' with
    | functor body =>
      obtain ⟨-, -, sameBody, -⟩ := Node.functor.inj same
      exact ih body sameBody
    | _ => cases same

/-- Programs with the same declarations have the same plan up to ids and places. -/
theorem Program.Reordered.plan_bare_eq {p q : Program} (same : p.Reordered q) (wf : p.WellFormed)
    (wf' : q.WellFormed) : p.plan.bare = q.plan.bare :=
  wf.resolves_root.bare_eq (fun name ↦ (p.functorBody_bare name).symm.trans (same.bodies wf name))
    wf'.resolves_root same.root

/-- Two texts that are parsed, and that are written for sources which have the same items, lexeme by
lexeme, in different orders.  In every environment their checks agree: both succeed or neither does,
with the same type and the same environment, and with the same errors and warnings up to ids and
places.  A run that is not observed ends in the same way and leaves the same world behind, with the
same calls at the same instants, whatever carries out the tasks and whenever it is cancelled. -/
theorem check_and_run_of_reordered {text text' : String} {p q : Program}
    (hp : Program.parse text = .ok p) (hq : Program.parse text' = .ok q)
    {source source' : List Sentence} (snug : Snug (lexemesOf source) text.toList)
    (snug' : Snug (lexemesOf source') text'.toList)
    (same : (source.map Sentence.lexemes).Perm (source'.map Sentence.lexemes)) :
    (∀ base, (p.check base).Agrees (q.check base)) ∧
    ∀ {σ : Type} (e : Executor σ) (policy : Policy) (input : Val) (s : σ) (clock : Nat)
      (cancelAfter : Option Nat),
      let m : Machine σ Unit := ⟨e, .blind, policy⟩
      m.run p.plan input s () clock cancelAfter = m.run q.plan input s () clock cancelAfter := by
  have wf := Program.wellFormed_of_parse hp
  have wf' := Program.wellFormed_of_parse hq
  have reordered := Program.reordered_of_parse hp hq snug snug' same
  refine ⟨reordered.check_agrees wf wf' (Program.nodup_names_of_parse hp), ?_⟩
  intro σ e policy input s clock cancelAfter m
  rw [← Machine.run_bare rfl p.plan, reordered.plan_bare_eq wf wf', Machine.run_bare rfl]

/-- A functor without use and a composition that does not fit, declared in either order, and a
signature behind all. -/
theorem check_and_run_of_reordered_of_faults :
    let text := "f = b ∘ a\ng = c\na :: A -> B\nb :: C -> D\nf × a"
    let text' := "b :: C -> D\ng = c\nf = b ∘ a f × a\na :: A -> B"
    let script : Script := [("a", [⟨10, false, false, .echo⟩])]
    let m : Machine (Table Nat) Unit := ⟨script.executor.within 50, .blind, .failFast⟩
    ∃ p q, Program.parse text = .ok p ∧ Program.parse text' = .ok q ∧
      (p.check .empty).Agrees (q.check .empty) ∧ (p.check .empty).success = false ∧
      m.run p.plan .unit [] () 0 none = m.run q.plan .unit [] () 0 none := by
  intro text text' script m
  let name (text : String) (isName : IsName text) : Phrase .factor :=
    .term (.name ⟨text, .nowhere⟩ isName)
  let ty (a b : String) (ha : IsWord a) (hb : IsWord b) : TyPhrase .type :=
    .arrow (.atom (.word a ha)) (.power (.atom (.word b hb)))
  let a : Sentence := .signature ⟨"a", .nowhere⟩ (by decide)
    (ty "A" "B" (by decide) (by decide)) .nowhere
  let b : Sentence := .signature ⟨"b", .nowhere⟩ (by decide)
    (ty "C" "D" (by decide) (by decide)) .nowhere
  let f : Sentence := .functor false ⟨"f", .nowhere⟩ (by decide)
    (.after (.factor (name "b" (by decide))) .circle (name "a" (by decide))) .nowhere
  let g : Sentence := .functor false ⟨"g", .nowhere⟩ (by decide)
    (.factor (name "c" (by decide))) .nowhere
  let root : Sentence := .expression
    (.factor (.times (name "f" (by decide)) (.name ⟨"a", .nowhere⟩ (by decide)))) .nowhere
  have hp := Except.eq_ok_get (x := Program.parse text) (by decide)
  have hq := Except.eq_ok_get (x := Program.parse text') (by decide)
  have snug : Snug (lexemesOf [f, g, a, b, root]) text.toList := by decide
  have snug' : Snug (lexemesOf [b, g, f, root, a]) text'.toList := by decide
  obtain ⟨agrees, runs⟩ := check_and_run_of_reordered hp hq snug snug' (by decide)
  exact ⟨_, _, hp, hq, agrees .empty, by decide +kernel, runs _ _ _ _ _ _⟩

end Taskflow
