import Taskflow.Grammar.Parse
import Taskflow.Proofs.Except
import Taskflow.Proofs.Program.Structure
import Taskflow.Proofs.Wire.Fields
import Taskflow.Typing.Check
import Taskflow.Wire.Run

/-!
# Documents read back

Every type, node, signature, program, environment, value, violation and report is what is read from
the document that is written for it, provided that its numbers fit where documents put them: ids
into 32 bits, places in a text into 64.
-/

namespace Taskflow

/-! ## Types, environments and values -/

/-- A type is read back, be it part of another document or not. -/
theorem Ty.decodeFrom?_encode (numbered : Bool) (t : Ty) :
    decodeFrom? numbered t.encode = some t := by
  induction t generalizing numbered with
  | mono name | var name =>
    rw [encode, decodeFrom?]
    split
    next h =>
      obtain ⟨rfl, rfl⟩ := Json.eq_of_tagged?_obj (by decide) h
      simp [List.lookup_cons, Json.str?]
    next h => cases h
  | fn a b iha ihb | prod a b iha ihb =>
    rw [encode, decodeFrom?]
    split
    next h =>
      obtain ⟨rfl, rfl⟩ := Json.eq_of_tagged?_obj (by decide) h
      simp [List.lookup_cons, List.lookup_nil, iha, ihb]
    next h => cases h
  | unit =>
    rw [encode, decodeFrom?]
    split
    next h =>
      obtain ⟨rfl, rfl⟩ := Json.eq_of_tagged?_obj (by decide) h
      rfl
    next h => cases h

/-- A type is read back. -/
theorem Ty.decode?_encode (t : Ty) : decode? t.encode = some t := decodeFrom?_encode false t

/-- What is written for a type is an object. -/
theorem Ty.encode_ne_null (t : Ty) : t.encode ≠ .null := by
  cases t <;> simp [encode]

/-- An environment is read back. -/
theorem Environment.decode?_encode (env : Environment) : decode? env.encode = some env := by
  have entries : Json.tableOf? Ty.decode? (env.entries.map fun e ↦ (e.1, e.2.encode)) =
      some env.entries :=
    (Json.tableOf?_map id fun e _ ↦ e.2.decode?_encode).trans (by simp)
  simp [decode?, encode, Json.entries?, entries]

/-- What is written for an environment is an object. -/
theorem Environment.encode_ne_null (env : Environment) : env.encode ≠ .null := Json.noConfusion

/-- The form and the content that are read of a value's document. -/
theorem Val.eq_of_parts?_obj {name form : String} {content content' : Json}
    (h : parts? (.obj [("t", .str name), ("v", content)]) = some (form, some content')) :
    form = name ∧ content' = content := by
  have parts : parts? (.obj [("t", .str name), ("v", content)]) = some (name, some content) := rfl
  obtain ⟨same, contents⟩ := Prod.mk.inj (Option.some.inj (h.symm.trans parts))
  exact ⟨same, Option.some.inj contents⟩

/-- A value is read back, its payload and the absence of a tag included. -/
theorem Val.decode?_encode (v : Val) : decode? v.encode = some v := by
  induction v with
  | unit =>
    rw [encode, decode?]
    rfl
  | data tag payload =>
    cases tag with
    | none | some =>
      rw [encode, decode?]
      split
      next h =>
        obtain ⟨rfl, rfl⟩ := eq_of_parts?_obj h
        simp [Json.entries?, List.lookup_cons, List.lookup_nil, Json.optional?, Json.str?]
      next h => cases h
      next h => cases h
  | pair left right ihl ihr =>
    rw [encode, decode?]
    split
    next h =>
      obtain ⟨rfl, rfl⟩ := eq_of_parts?_obj h
      simp [ihl, ihr]
    next h => cases h
    next h => cases h

/-! ## Programs -/

namespace Node

/-- The ids and the spans of a node and of all below it fit into documents. -/
def Fits (n : Node) : Prop := ∀ m ∈ n.all, m.id < NodeId.idLimit ∧ m.span.Fits
deriving Decidable

/-- The id and the span of a node are read back. -/
theorem Fits.own {n : Node} (h : n.Fits) : NodeId.decode? n.id.encode = some n.id ∧
    Span.decodeField? n.span.encodeField = some n.span :=
  ⟨NodeId.decode?_encode (h n n.mem_all_self).1,
    Span.decodeField?_encodeField (h n n.mem_all_self).2⟩

/-- A node is read back, be it part of another one or not. -/
theorem decodeFrom?_encode (numbered : Bool) {n : Node} (h : n.Fits) :
    decodeFrom? numbered n.encode = some n := by
  induction n generalizing numbered with
  | literal id name span =>
    have own :
        NodeId.decode? id.encode = some id ∧ Span.decodeField? span.encodeField = some span :=
      h.own
    rw [encode, decodeFrom?]
    split
    next eq =>
      obtain ⟨rfl, rfl⟩ := Json.eq_of_tagged?_obj (by decide) eq
      simp -implicitDefEqProofs [List.lookup_cons, Json.str?, Span.decodeField?_cons, own]
    next eq => cases eq
  | composition id left right span ihl ihr | product id left right span ihl ihr =>
    have own :
        NodeId.decode? id.encode = some id ∧ Span.decodeField? span.encodeField = some span :=
      h.own
    have left_back := ihl true fun m hm ↦ h m (by simp [all, hm])
    have right_back := ihr true fun m hm ↦ h m (by simp [all, hm])
    rw [encode, decodeFrom?]
    split
    next eq =>
      obtain ⟨rfl, rfl⟩ := Json.eq_of_tagged?_obj (by decide) eq
      simp -implicitDefEqProofs [List.lookup_cons, Span.decodeField?_cons, own, left_back,
        right_back]
    next eq => cases eq
  | functor id name body span ih =>
    have own :
        NodeId.decode? id.encode = some id ∧ Span.decodeField? span.encodeField = some span :=
      h.own
    have body_back := ih true fun m hm ↦ h m (by simp [all, hm])
    rw [encode, decodeFrom?]
    split
    next eq =>
      obtain ⟨rfl, rfl⟩ := Json.eq_of_tagged?_obj (by decide) eq
      simp -implicitDefEqProofs [List.lookup_cons, Json.str?, Span.decodeField?_cons, own,
        body_back]
    next eq => cases eq

/-- A node is read back. -/
theorem decode?_encode {n : Node} (h : n.Fits) : decode? n.encode = some n :=
  decodeFrom?_encode false h

end Node

/-- A signature is read back. -/
theorem Signature.decode?_encode {s : Signature} (h : s.span.Fits) :
    decode? s.encode = some s := by
  simp -implicitDefEqProofs [decode?, encode, Json.members?, List.lookup_cons, Json.required?,
    Json.str?, Ty.decode?_encode, Span.decodeField?_cons, Span.decodeField?_encodeField h]

namespace Program

/-- The numbers of a program fit into its document. -/
structure Fits (p : Program) : Prop where
  signatures : ∀ s ∈ p.signatures, s.2.span.Fits
  nodes : ∀ n ∈ p.nodes, n.id < NodeId.idLimit ∧ n.span.Fits
  span : p.span.Fits

/-- A program is read back, its tables in their order. -/
theorem decode?_encode {p : Program} (h : p.Fits) : decode? p.encode = some p := by
  have signatures : Json.tableOf? Signature.decode? (p.signatures.map fun s ↦ (s.1, s.2.encode)) =
      some p.signatures :=
    (Json.tableOf?_map id fun s hs ↦ Signature.decode?_encode (h.signatures s hs)).trans (by simp)
  have functor_nodes (f : String × Node) (hf : f ∈ p.functors) : f.2.Fits := fun n hn ↦
    h.nodes n (List.mem_append_left _ (List.mem_flatMap_of_mem hf hn))
  have functors : Json.tableOf? Node.decode? (p.functors.map fun f ↦ (f.1, f.2.encode)) =
      some p.functors :=
    (Json.tableOf?_map id fun f hf ↦ Node.decode?_encode (functor_nodes f hf)).trans (by simp)
  have root : p.root.Fits := fun n hn ↦ h.nodes n (List.mem_append_right _ hn)
  simp -implicitDefEqProofs [decode?, encode, Json.members?, List.lookup_cons, Json.required?,
    Json.entries?, signatures, functors, Node.decode?_encode root, Span.decodeField?_cons,
    Span.decodeField?_encodeField h.span]

end Program

/-! ## Reports and violations -/

/-- A kind of error is read back. -/
theorem TypeErrorKind.decode?_name (k : TypeErrorKind) : decode? (.str k.name) = some k := by
  cases k <;> rfl

/-- An error is read back. -/
theorem TypeError.decode?_encode {e : TypeError} (id : e.node < NodeId.idLimit)
    (span : e.span.Fits) : decode? e.encode = some e := by
  simp -implicitDefEqProofs [decode?, encode, Json.members?, lookup_cons_eq_ite, Json.required?,
    Json.str?, TypeErrorKind.decode?_name, NodeId.decode?_encode id, Span.decode?_encode span,
    Json.lookup_optionalField_append, Json.optional?_lookup Ty.decode?_encode Ty.encode_ne_null]

/-- A warning is read back. -/
theorem Warning.decode?_encode {w : Warning} (span : w.span.Fits) :
    decode? w.encode = some w := by
  simp -implicitDefEqProofs [decode?, encode, Json.members?, lookup_cons_eq_ite, Json.required?,
    Json.str?, Json.choice?, Span.decode?_encode span]

/-- A violation is read back. -/
theorem Violation.decode?_encode {v : Violation} (id : v.site.node < NodeId.idLimit)
    (span : v.site.span.Fits) : decode? v.encode = some v := by
  simp -implicitDefEqProofs [decode?, encode, Json.members?, lookup_cons_eq_ite, Json.required?,
    Json.str?, NodeId.decode?_encode id, Span.decode?_encode span, Ty.decode?_encode]

/-- Types by node are read back. -/
theorem decodeNodeTypes?_encode {types : SortedMap NodeId Ty}
    (ids : ∀ e ∈ types.entries, e.1 < NodeId.idLimit) :
    decodeNodeTypes? (encodeNodeTypes types) = some types := by
  have table : Json.tableOf? Ty.decode? (types.entries.map fun e ↦ (Nat.repr e.1, e.2.encode)) =
      some (types.entries.map fun e ↦ (Nat.repr e.1, e.2)) :=
    Json.tableOf?_map Nat.repr fun e _ ↦ e.2.decode?_encode
  have keyed : ∀ l : List (NodeId × Ty), (∀ e ∈ l, e.1 < NodeId.idLimit) →
      (l.map fun e ↦ (Nat.repr e.1, e.2)).mapM (fun e ↦ (nodeIdOfKey? e.1).map (·, e.2)) =
        some l := by
    intro l ids
    induction l with
    | nil => rfl
    | cons e rest ih =>
      obtain ⟨first, rest⟩ := List.forall_mem_cons.1 ids
      simp [List.mapM_cons, nodeIdOfKey?_repr first, ih rest]
  simp [decodeNodeTypes?, encodeNodeTypes, Json.entries?, table, keyed _ ids]

namespace Report

/-- The numbers of a report fit into its document. -/
structure Fits (r : Report) : Prop where
  errors : ∀ e ∈ r.errors, e.node < NodeId.idLimit ∧ e.span.Fits
  warnings : ∀ w ∈ r.warnings, w.span.Fits
  nodeTypes : ∀ e ∈ r.nodeTypes.entries, e.1 < NodeId.idLimit

/-- A report is read back. -/
theorem decode?_encode {r : Report} (h : r.Fits) : decode? r.encode = some r := by
  have errors := Json.listOf?_map (l := r.errors) fun e he ↦
    TypeError.decode?_encode (h.errors e he).1 (h.errors e he).2
  have warnings := Json.listOf?_map (l := r.warnings) fun w hw ↦
    Warning.decode?_encode (h.warnings w hw)
  simp -implicitDefEqProofs [decode?, encode, Json.members?, lookup_cons_eq_ite, Json.required?,
    Json.bool?, Json.items?, errors, warnings, Json.lookup_optionalField_append,
    Json.optional?_lookup Ty.decode?_encode Ty.encode_ne_null,
    Json.optional?_lookup Environment.decode?_encode Environment.encode_ne_null,
    decodeNodeTypes?_encode h.nodeTypes]

end Report

/-- Everything that travels as a document is what is read from its document, up to the last entry of
its tables and in their order.  Ids have 32 bits and places in a text have 64, which is what `Fits`
says of the numbers in a node, a program or a report; types, environments and values have none. -/
theorem documents_read_back :
    (∀ t : Ty, Ty.decode? t.encode = some t) ∧
    (∀ n : Node, n.Fits → Node.decode? n.encode = some n) ∧
    (∀ s : Signature, s.span.Fits → Signature.decode? s.encode = some s) ∧
    (∀ p : Program, p.Fits → Program.decode? p.encode = some p) ∧
    (∀ env : Environment, Environment.decode? env.encode = some env) ∧
    (∀ v : Val, Val.decode? v.encode = some v) ∧
    (∀ v : Violation, v.site.node < NodeId.idLimit → v.site.span.Fits →
      Violation.decode? v.encode = some v) ∧
    ∀ r : Report, r.Fits → Report.decode? r.encode = some r :=
  ⟨Ty.decode?_encode, fun _ ↦ Node.decode?_encode, fun _ ↦ Signature.decode?_encode,
    fun _ ↦ Program.decode?_encode, Environment.decode?_encode, Val.decode?_encode,
    fun _ ↦ Violation.decode?_encode, fun _ ↦ Report.decode?_encode⟩

/-- A program with all forms of nodes and its report, which has an error, a warning and types. -/
theorem documents_read_back_of_report :
    ∃ p, Program.parse "b :: A -> B\nfunctor f = a × b\ng = f ∘ b\nb ∘ b" = .ok p ∧
      Program.decode? p.encode = some p ∧ Node.decode? p.root.encode = some p.root ∧
      Report.decode? (p.check .empty).encode = some (p.check .empty) ∧
      (let s : Signature := ⟨"b", .fn (.mono "A") .unit, .nowhere⟩
       Signature.decode? s.encode = some s) ∧
      (let v : Violation := ⟨⟨7, "b", .nowhere⟩, .unit, .mono "A"⟩
       Violation.decode? v.encode = some v) := by
  obtain ⟨-, node, signature, program, -, -, violation, report⟩ := documents_read_back
  refine ⟨_, Except.eq_ok_get (by decide), program _ ⟨?_, ?_, ?_⟩, node _ ?_,
    report _ ⟨fun e he ↦ ?_, ?_, ?_⟩, signature _ (by decide), violation _ (by decide) (by decide)⟩
  case refine_5 =>
    have found := List.mem_mergeSort.1 he
    clear he
    revert e
    decide +kernel
  all_goals decide +kernel

end Taskflow
