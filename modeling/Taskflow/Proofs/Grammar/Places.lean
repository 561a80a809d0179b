import Taskflow.Proofs.Grammar.RoundTrip

/-!
# Building does not look at places

A program, or the reason why items are no program, has places in the text.  Taking them away keeps
everything else: names, ids, and which name is at fault for which reason.  Items without places are
built to the program without places, or refused for the reason without places (`build_unplaced`), so
what is built depends on nothing but what the items say (`build_unplaced_of_clause`).
-/

namespace Taskflow

/-! ## Without places -/

/-- A node without places in a text; ids stay. -/
def Node.unplaced : Node → Node
  | .literal id name _ => .literal id name .nowhere
  | .composition id outer inner _ => .composition id outer.unplaced inner.unplaced .nowhere
  | .product id left right _ => .product id left.unplaced right.unplaced .nowhere
  | .functor id name body _ => .functor id name body.unplaced .nowhere

@[simp] theorem Node.span_unplaced (n : Node) : n.unplaced.span = .nowhere := by
  cases n <;> rfl

/-- A program without places. -/
def Program.unplaced (p : Program) : Program where
  signatures := p.signatures.map fun s ↦ (s.1, s.2.bare)
  functors := p.functors.map fun f ↦ (f.1, f.2.unplaced)
  root := p.root.unplaced
  span := .nowhere

namespace Grammar

def Word.unplaced (w : Word) : Word := ⟨w.text, .nowhere⟩

@[simp] theorem Word.text_unplaced (w : Word) : w.unplaced.text = w.text := rfl

@[simp] theorem Word.span_unplaced (w : Word) : w.unplaced.span = .nowhere := rfl

namespace Expr

def unplaced : Expr → Expr
  | .name word => .name word.unplaced
  | .compose outer inner => .compose outer.unplaced inner.unplaced
  | .product left right => .product left.unplaced right.unplaced

@[simp] theorem span_unplaced (x : Expr) : x.unplaced.span = .nowhere := by
  induction x with
  | name => rfl
  | compose outer inner ihOuter ihInner =>
    rw [unplaced, span, ihOuter, ihInner]
    rfl
  | product left right ihLeft ihRight =>
    rw [unplaced, span, ihLeft, ihRight]
    rfl

@[simp] theorem words_unplaced (x : Expr) : x.unplaced.words = x.words.map Word.unplaced := by
  induction x <;> simp_all [unplaced, words]

/-- Places do not count in the numbering. -/
theorem number_unplaced (x : Expr) (n : NodeId) :
    x.unplaced.number n = ((x.number n).1.unplaced, (x.number n).2) := by
  induction x generalizing n with
  | name => rfl
  | compose outer inner ihOuter ihInner =>
    simp only [unplaced, number, ihOuter, ihInner, span_unplaced]
    rfl
  | product left right ihLeft ihRight =>
    simp only [unplaced, number, ihLeft, ihRight, span_unplaced]
    rfl

/-- Without places, an expression is determined by the node that it makes. -/
theorem unplaced_eq_of_bare_eq {x y : Expr} (h : x.bare = y.bare) : x.unplaced = y.unplaced := by
  induction x generalizing y with
  | name word =>
    cases y with
    | name word' =>
      obtain ⟨-, same, -⟩ := Node.literal.inj h
      simp [unplaced, Word.unplaced, same]
    | _ => cases h
  | compose outer inner ihOuter ihInner =>
    cases y with
    | compose =>
      obtain ⟨-, sameOuter, sameInner, -⟩ := Node.composition.inj h
      rw [unplaced, unplaced, ihOuter sameOuter, ihInner sameInner]
    | _ => cases h
  | product left right ihLeft ihRight =>
    cases y with
    | product =>
      obtain ⟨-, sameLeft, sameRight, -⟩ := Node.product.inj h
      rw [unplaced, unplaced, ihLeft sameLeft, ihRight sameRight]
    | _ => cases h

end Expr

namespace Item

def unplaced : Item → Item
  | .signature name ty _ => .signature name.unplaced ty .nowhere
  | .functor name body _ => .functor name.unplaced body.unplaced .nowhere
  | .expression body _ => .expression body.unplaced .nowhere

/-- Without places, an item is determined by what it says. -/
theorem unplaced_eq_of_clause_eq {i j : Item} (h : i.clause = j.clause) :
    i.unplaced = j.unplaced := by
  cases i with
  | signature name ty span =>
    cases j with
    | signature =>
      obtain ⟨sameName, rfl⟩ := Clause.signature.inj h
      simp [unplaced, Word.unplaced, sameName]
    | _ => cases h
  | functor name body span =>
    cases j with
    | functor =>
      obtain ⟨sameName, sameBody⟩ := Clause.functor.inj h
      simp [unplaced, Word.unplaced, sameName, Expr.unplaced_eq_of_bare_eq sameBody]
    | _ => cases h
  | expression body span =>
    cases j with
    | expression => rw [unplaced, unplaced, Expr.unplaced_eq_of_bare_eq (Clause.root.inj h)]
    | _ => cases h

end Item

/-- The reason why items are no program, without places. -/
def BuildError.unplaced : BuildError → BuildError
  | .duplicateFunctor name _ => .duplicateFunctor name.unplaced .nowhere
  | .duplicateSignature name _ _ => .duplicateSignature name .nowhere .nowhere
  | .selfReference name => .selfReference name.unplaced
  | .usedBeforeDeclaration name _ => .usedBeforeDeclaration name.unplaced .nowhere
  | .secondExpression _ _ => .secondExpression .nowhere .nowhere
  | .noExpression _ => .noExpression .nowhere

/-! ## Building -/

def Declaration.unplaced (d : Declaration) : Declaration := ⟨d.item, .nowhere⟩

theorem declarations_unplaced (n : Nat) (items : List Item) :
    declarations n (items.map Item.unplaced) =
      (declarations n items).map fun d ↦ (d.1, d.2.unplaced) := by
  induction items generalizing n with
  | nil => rfl
  | cons item rest ih =>
    cases item with
    | functor name body span => exact congrArg ((name.text, ⟨n, .nowhere⟩) :: ·) (ih (n + 1))
    | signature => exact ih (n + 1)
    | expression => exact ih (n + 1)

theorem distinctFunctors_unplaced (seen : Table Span) (items : List Item) :
    distinctFunctors (seen.map fun s ↦ (s.1, .nowhere)) (items.map Item.unplaced) =
      (distinctFunctors seen items).mapError BuildError.unplaced := by
  induction items generalizing seen with
  | nil => rfl
  | cons item rest ih =>
    cases item with
    | functor name body span =>
      have found := lookup_map_snd (fun _ ↦ Span.nowhere) name.text seen
      rw [List.map_cons, Item.unplaced, distinctFunctors, distinctFunctors, Word.text_unplaced,
        found]
      cases seen.lookup name.text with
      | some first => rfl
      | none => simpa using ih (seen ++ [(name.text, name.span)])
    | signature => exact ih seen
    | expression => exact ih seen

theorem inScope_unplaced (declared : Table Declaration) (item : Nat) (ws : List Word) :
    inScope (declared.map fun d ↦ (d.1, d.2.unplaced)) item (ws.map Word.unplaced) =
      (inScope declared item ws).mapError BuildError.unplaced := by
  induction ws with
  | nil => rfl
  | cons w rest ih =>
    rw [List.map_cons, inScope, inScope, Word.text_unplaced, lookup_map_snd]
    cases declared.lookup w.text with
    | none => exact ih
    | some d =>
      dsimp only [Option.map_some, Declaration.unplaced]
      split
      · rfl
      split
      · rfl
      · exact ih

theorem addSignature_unplaced (table : Table Signature) (s : Signature) :
    addSignature (table.map fun s ↦ (s.1, s.2.bare)) s.bare =
      ((addSignature table s).map (List.map fun s ↦ (s.1, s.2.bare))).mapError
        BuildError.unplaced := by
  have found := lookup_map_snd Signature.bare s.name table
  rw [addSignature, addSignature, show s.bare.name = s.name from rfl, found]
  cases table.lookup s.name with
  | some first => rfl
  | none => exact congrArg Except.ok (by simp)

namespace Draft

/-- A draft without places. -/
def unplaced (d : Draft) : Draft where
  next := d.next
  signatures := d.signatures.map fun s ↦ (s.1, s.2.bare)
  functors := d.functors.map fun f ↦ (f.1, f.2.unplaced)
  root := d.root.map Node.unplaced

theorem add_unplaced (declared : Table Declaration) (position : Nat) (d : Draft) (item : Item) :
    d.unplaced.add (declared.map fun d ↦ (d.1, d.2.unplaced)) position item.unplaced =
      ((d.add declared position item).map Draft.unplaced).mapError BuildError.unplaced := by
  cases item with
  | signature name ty span =>
    have adds : addSignature d.unplaced.signatures ⟨name.text, ty, .nowhere⟩ = _ :=
      addSignature_unplaced d.signatures ⟨name.text, ty, span⟩
    rw [Item.unplaced, add, add, Word.text_unplaced, adds]
    cases addSignature d.signatures ⟨name.text, ty, span⟩ <;> rfl
  | functor name body span =>
    rw [Item.unplaced, add, add, Expr.words_unplaced, inScope_unplaced, Expr.number_unplaced]
    cases inScope declared position body.words with
    | error e => rfl
    | ok => exact congrArg Except.ok (by simp [unplaced, Node.unplaced])
  | expression body span =>
    rw [Item.unplaced, add, add, Expr.words_unplaced, inScope_unplaced, Expr.number_unplaced]
    cases root : d.root with
    | some n =>
      rw [unplaced, root]
      exact congrArg Except.error (by simp [BuildError.unplaced])
    | none =>
      rw [unplaced, root]
      cases inScope declared position body.words <;> rfl

theorem addAll_unplaced (declared : Table Declaration) (position : Nat) (d : Draft)
    (items : List Item) :
    d.unplaced.addAll (declared.map fun d ↦ (d.1, d.2.unplaced)) position
        (items.map Item.unplaced) =
      ((d.addAll declared position items).map Draft.unplaced).mapError BuildError.unplaced := by
  induction items generalizing position d with
  | nil => rfl
  | cons item rest ih =>
    rw [List.map_cons, addAll, addAll, add_unplaced]
    cases d.add declared position item with
    | error e => rfl
    | ok d' => exact ih (position + 1) d'

end Draft

/-- Items without places are built to the program without places, or refused for the reason without
places. -/
theorem build_unplaced (items : List Item) (text : Span) :
    build (items.map Item.unplaced) .nowhere =
      ((build items text).map Program.unplaced).mapError BuildError.unplaced := by
  have distinct : distinctFunctors [] (items.map Item.unplaced) = _ :=
    distinctFunctors_unplaced [] items
  have adds : Draft.blank.addAll _ 0 (items.map Item.unplaced) = _ :=
    Draft.addAll_unplaced (declarations 0 items) 0 .blank items
  rw [build, build, distinct, declarations_unplaced, adds]
  cases distinctFunctors [] items with
  | error e => rfl
  | ok =>
    cases Draft.blank.addAll (declarations 0 items) 0 items with
    | error e => rfl
    | ok d =>
      obtain ⟨next, signatures, functors, root⟩ := d
      cases root <;> rfl

/-- What items are built to depends, up to places, on nothing but what they say. -/
theorem build_unplaced_of_clause {items items' : List Item} (text text' : Span)
    (same : items.map Item.clause = items'.map Item.clause) :
    ((build items text).map Program.unplaced).mapError BuildError.unplaced =
      ((build items' text').map Program.unplaced).mapError BuildError.unplaced := by
  have unplaced : items.map Item.unplaced = items'.map Item.unplaced := by
    induction items generalizing items' with
    | nil => rw [List.map_eq_nil_iff.1 same.symm]
    | cons i items ih =>
      obtain ⟨j, items', rfl, first, rest⟩ := List.map_eq_cons_iff.1 same.symm
      rw [List.map_cons, List.map_cons, Item.unplaced_eq_of_clause_eq first.symm, ih rest.symm]
  rw [← build_unplaced, ← build_unplaced, unplaced]

end Grammar

end Taskflow
