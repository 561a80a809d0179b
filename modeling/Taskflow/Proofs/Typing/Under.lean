import Taskflow.Proofs.Grammar.Building
import Taskflow.Proofs.Grammar.Under
import Taskflow.Proofs.Typing.Warnings

/-!
# Checking further down

Where a program stands in a text does not matter to what is found in it, only to where.  A program
that is moved down has the same nodes further down (`Expr.number_under`), inference finds the same
errors further down (`infer_under`), and since moving keeps the order of places, errors are
reported in the same order (`Program.Under.check_eq`).
-/

namespace Taskflow

/-! ## Places further down -/

theorem Position.offset_under_le_iff {p q b : Position} :
    (p.under b).offset ≤ (q.under b).offset ↔ p.offset ≤ q.offset :=
  Nat.add_le_add_iff_left

namespace Span

theorem merge_under (a c : Span) (b : Position) :
    (a.merge c).under b = (a.under b).merge (c.under b) := by
  have start : (a.under b).start.offset ≤ (c.under b).start.offset ↔
      a.start.offset ≤ c.start.offset := Position.offset_under_le_iff
  have stop : (c.under b).stop.offset ≤ (a.under b).stop.offset ↔
      c.stop.offset ≤ a.stop.offset := Position.offset_under_le_iff
  simp only [merge, start, stop]
  simp only [under]
  split <;> split <;> rfl

theorem notAfter_under (a c : Span) (b : Position) :
    (a.under b).notAfter (c.under b) = a.notAfter c := by
  have same : ((a.under b).start.offset == (c.under b).start.offset) =
      (a.start.offset == c.start.offset) := by
    rw [Bool.eq_iff_iff]
    simp [under, Position.under]
  rw [notAfter, notAfter, same]
  simp [under, Position.under]

end Span

/-- A node further down. -/
def Node.under (b : Position) : Node → Node
  | .literal id name span => .literal id name (span.under b)
  | .composition id outer inner span =>
    .composition id (outer.under b) (inner.under b) (span.under b)
  | .product id left right span => .product id (left.under b) (right.under b) (span.under b)
  | .functor id name body span => .functor id name (body.under b) (span.under b)

namespace Node

variable (n : Node) (b : Position)

@[simp] theorem id_under : (n.under b).id = n.id := by
  cases n <;> rfl

@[simp] theorem span_under : (n.under b).span = n.span.under b := by
  cases n <;> rfl

@[simp] theorem render_under : (n.under b).render = n.render := by
  induction n <;> simp_all [under, render]

@[simp] theorem references_under : (n.under b).references = n.references := by
  induction n <;> simp_all [under, references]

theorem isDeclaration_under : (n.under b).isDeclaration = n.isDeclaration := by
  cases n <;> rfl

end Node

namespace Grammar

@[simp] theorem Expr.span_under (x : Expr) (b : Position) : (x.under b).span = x.span.under b := by
  induction x with
  | name => rfl
  | compose _ _ ihOuter ihInner => rw [under, span, ihOuter, ihInner, span, Span.merge_under]
  | product _ _ ihLeft ihRight => rw [under, span, ihLeft, ihRight, span, Span.merge_under]

@[simp] theorem Expr.size_under (x : Expr) (b : Position) : (x.under b).size = x.size := by
  induction x <;> simp_all [under, size]

theorem Expr.number_under (x : Expr) (b : Position) (n : NodeId) :
    (x.under b).number n = ((x.number n).1.under b, (x.number n).2) := by
  induction x generalizing n with
  | name => rfl
  | compose _ _ ihOuter ihInner =>
    simp only [under, number, ihOuter, ihInner, Expr.span_under, ← Span.merge_under]
    rfl
  | product _ _ ihLeft ihRight =>
    simp only [under, number, ihLeft, ihRight, Expr.span_under, ← Span.merge_under]
    rfl

end Grammar

/-! ## Inference -/

def TypeError.under (e : TypeError) (b : Position) : TypeError := { e with span := e.span.under b }

def Warning.under (w : Warning) (b : Position) : Warning := { w with span := w.span.under b }

def Findings.under (f : Findings) (b : Position) : Findings :=
  { f with errors := f.errors.map (·.under b) }

/-- A report whose places are further down. -/
def Report.under (r : Report) (b : Position) : Report :=
  { r with errors := r.errors.map (·.under b), warnings := r.warnings.map (·.under b) }

namespace TypeError

variable (n m k : Node) (b : Position)

theorem unbound_under (name : String) : unbound (n.under b) name = (unbound n name).under b := by
  simp [unbound, under]

theorem composition_under (t u : Ty) :
    composition (n.under b) (m.under b) (k.under b) t u = (composition n m k t u).under b := by
  simp [composition, under]

theorem product_under (t u : Ty) :
    product (n.under b) (m.under b) (k.under b) t u = (product n m k t u).under b := by
  simp [product, under]

end TypeError

theorem Findings.record_under (f : Findings) (b : Position) (id : NodeId) (t : Option Ty) :
    (f.under b).record id t = ((f.record id t).1, (f.record id t).2.under b) := by
  cases t <;> rfl

theorem Findings.report_under (f : Findings) (b : Position) (e : TypeError) :
    (f.under b).report (e.under b) = (f.report e).under b := by
  simp [report, under]

variable (isFunctor : String → Bool) (env : Environment)

/-- A node has the same type further down, and what is found on the way to it is the same further
down. -/
theorem infer_under (f : Findings) (n : Node) (b : Position) :
    infer isFunctor env (f.under b) (n.under b) =
      ((infer isFunctor env f n).1, (infer isFunctor env f n).2.under b) := by
  induction n generalizing f with
  | literal id name span =>
    have error := TypeError.unbound_under (.literal id name span) b name
    rw [Node.under] at error ⊢
    rw [infer, infer]
    split
    · exact f.record_under b id _
    · cases env.get? name with
      | some t => exact f.record_under b id _
      | none =>
        dsimp only
        rw [error, Findings.report_under]
  | composition id outer inner span ihOuter ihInner =>
    have error := TypeError.composition_under (.composition id outer inner span) outer inner b
    rw [Node.under] at error ⊢
    rw [infer, infer, ihInner]
    generalize infer isFunctor env f inner = foundInner
    obtain ⟨innerTy, f⟩ := foundInner
    simp only [ihOuter]
    generalize infer isFunctor env f outer = foundOuter
    obtain ⟨outerTy, f⟩ := foundOuter
    cases outerTy with
    | none => rfl
    | some o =>
      cases innerTy with
      | none => rfl
      | some i =>
        dsimp only
        cases o.compose? i with
        | some t => exact f.record_under b id _
        | none =>
          dsimp only
          rw [error, Findings.report_under]
  | product id left right span ihLeft ihRight =>
    have error := TypeError.product_under (.product id left right span) left right b
    rw [Node.under] at error ⊢
    rw [infer, infer, ihLeft]
    generalize infer isFunctor env f left = foundLeft
    obtain ⟨leftTy, f⟩ := foundLeft
    simp only [ihRight]
    generalize infer isFunctor env f right = foundRight
    obtain ⟨rightTy, f⟩ := foundRight
    cases leftTy with
    | none => rfl
    | some l =>
      cases rightTy with
      | none => rfl
      | some r =>
        dsimp only
        cases l.product? r with
        | some t => exact f.record_under b id _
        | none =>
          dsimp only
          rw [error, Findings.report_under]
  | functor id name body span ih =>
    rw [Node.under, infer, infer, ih]
    generalize infer isFunctor env f body = found
    obtain ⟨ty, f⟩ := found
    cases ty with
    | none => rfl
    | some t =>
      exact Findings.record_under { f with functorTypes := f.functorTypes.insert name t } b id _

theorem inferAll_under (f : Findings) (nodes : List Node) (b : Position) :
    inferAll isFunctor env (f.under b) (nodes.map (·.under b)) =
      (inferAll isFunctor env f nodes).under b := by
  induction nodes generalizing f with
  | nil => rfl
  | cons n nodes ih =>
    rw [inferAll, List.map_cons, List.foldl_cons, infer_under]
    exact ih _

/-! ## Reports -/

/-- Whether a program declares the functors of another one and has its root, further down. -/
structure Program.Under (b : Position) (p q : Program) : Prop where
  functors : q.functors = p.functors.map fun f ↦ (f.1, f.2.under b)
  root : q.root = p.root.under b

namespace Program.Under

variable {b : Position} {p q : Program} (same : p.Under b q)
include same

theorem isFunctor_eq : q.isFunctor = p.isFunctor := by
  funext name
  have found := lookup_map_snd (Node.under b) name p.functors
  rw [isFunctor, isFunctor, same.functors, found, Option.isSome_map]

theorem infer_eq (env : Environment) :
    q.infer env = ((p.infer env).1, (p.infer env).2.under b) := by
  have nodes : q.functors.map (·.2) = (p.functors.map (·.2)).map (·.under b) := by
    rw [same.functors, List.map_map, List.map_map]
    rfl
  have functors : inferAll p.isFunctor env .none ((p.functors.map (·.2)).map (·.under b)) = _ :=
    inferAll_under p.isFunctor env .none _ b
  rw [infer, infer, same.isFunctor_eq, nodes, functors, same.root, infer_under]

/-- In one environment, what is found in a program is found in the other one further down. -/
theorem check_eq {base base' : Environment} (env : q.environment base' = p.environment base) :
    q.check base' = (p.check base).under b := by
  have sorted (errors : List TypeError) :
      (errors.map (·.under b)).mergeSort TypeError.notAfter =
        (errors.mergeSort TypeError.notAfter).map (·.under b) :=
    (List.map_mergeSort fun a _ c _ ↦ (Span.notAfter_under a.span c.span b).symm).symm
  have warnings : LintRule.all.flatMap (fun rule ↦ rule.check q (p.environment base)) =
      (LintRule.all.flatMap fun rule ↦ rule.check p (p.environment base)).map (·.under b) :=
    LintRule.check_map same.functors same.root (fun n ↦ n.references_under b)
      (fun n ↦ n.isDeclaration_under b) (fun n _ _ ↦ by rw [n.span_under, Warning.under]) _
  rw [check, check, checkWith, checkWith, env, same.infer_eq]
  simp only [warnings, Findings.under, sorted, List.isEmpty_map]
  rfl

end Program.Under

end Taskflow
