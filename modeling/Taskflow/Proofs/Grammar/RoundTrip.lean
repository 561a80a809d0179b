import Taskflow.Proofs.Grammar.Clauses
import Taskflow.Proofs.Grammar.Programs

/-!
# Programs as texts

A program that comes from a text can be written and parsed again: its canonical text makes the same
program, up to ids and places (`Program.parse_render`).

Which items make a program, and which program they make, is seen from their clauses alone.  `Holds`
is the second part: the tables of a program are the signatures, the functors and the root among the
clauses, each in order.  `Coherent` is the first part.  It asks for distinct names, for one root and
for functors that come before what refers to them, but not for an order between clauses of different
kinds; so the clauses of a well-formed program are coherent kind by kind.
-/

namespace Taskflow

/-! ## Without ids and places -/

/-- A signature without its place. -/
def Signature.bare (s : Signature) : Signature := { s with span := .nowhere }

/-- A program without ids and places. -/
def Program.bare (p : Program) : Program where
  signatures := p.signatures.map fun s ↦ (s.1, s.2.bare)
  functors := p.functors.map fun f ↦ (f.1, f.2.bare)
  root := p.root.bare
  span := .nowhere

namespace Grammar

namespace Clause

/-- The entry of the signature table that a clause makes. -/
def signature? : Clause → Option (String × Signature)
  | .signature name ty => some (name, ⟨name, ty, .nowhere⟩)
  | _ => none

/-- The entry of the functor table that a clause makes. -/
def functor? : Clause → Option (String × Node)
  | .functor name body => some (name, .functor 0 name body .nowhere)
  | _ => none

def root? : Clause → Option Node
  | .root body => some body
  | _ => none

/-- The names that a clause refers to. -/
def references : Clause → List String
  | .signature .. => []
  | .functor _ body | .root body => body.references

end Clause

/-! ## What items make -/

/-- Whether a draft consists of what clauses say. -/
structure Draft.Holds (d : Draft) (cs : List Clause) : Prop where
  signatures : d.signatures.map (fun s ↦ (s.1, s.2.bare)) = cs.filterMap Clause.signature?
  functors : d.functors.map (fun f ↦ (f.1, f.2.bare)) = cs.filterMap Clause.functor?
  root : d.root.toList.map Node.bare = cs.filterMap Clause.root?
  distinct : (d.signatures.map (·.1)).Nodup

theorem addSignature_eq_ok_iff {table table' : Table Signature} {s : Signature} :
    addSignature table s = .ok table' ↔
      s.name ∉ table.map (·.1) ∧ table' = table ++ [(s.name, s)] := by
  rw [← lookup_eq_none_iff_notMem, addSignature]
  split
  next first found => simp [found]
  next none =>
    rw [Except.ok.injEq, and_iff_right none]
    exact eq_comm

/-- The names that items refer to may be those of earlier functors. -/
theorem inScope_eq_ok {declared : Table Declaration} {position : Nat} {ws : List Word}
    (h : ∀ w ∈ ws, ∀ x, declared.lookup w.text = some x → x.item < position) :
    inScope declared position ws = .ok () := by
  induction ws with
  | nil => rfl
  | cons w ws ih =>
    obtain ⟨first, rest⟩ := List.forall_mem_cons.1 h
    rw [inScope]
    split
    · exact ih rest
    next x found =>
      have earlier := first x found
      rw [if_neg (Nat.ne_of_lt earlier), if_neg (Nat.lt_asymm earlier)]
      exact ih rest

namespace Draft.Holds

variable {declared : Table Declaration} {k : Nat} {d d' : Draft} {cs : List Clause} {item : Item}

theorem blank : Draft.blank.Holds [] := ⟨rfl, rfl, rfl, .nil⟩

/-- An item adds what it says. -/
theorem add (holds : d.Holds cs) (h : d.add declared k item = .ok d') :
    d'.Holds (cs ++ [item.clause]) := by
  obtain ⟨signatures, functors, root, distinct⟩ := holds
  cases item with
  | signature name ty span =>
    obtain ⟨table, adds, same⟩ := Except.bind_eq_ok_iff.1 h
    obtain ⟨fresh, rfl⟩ := addSignature_eq_ok_iff.1 adds
    cases same
    refine ⟨?_, ?_, ?_, ?_⟩
    · rw [List.map_append, signatures, List.filterMap_append]
      rfl
    · simp [functors, Item.clause, Clause.functor?]
    · simp [root, Item.clause, Clause.root?]
    · rw [List.map_append, List.map_singleton, List.nodup_append_comm]
      exact List.nodup_cons.2 ⟨fresh, distinct⟩
  | functor name body span =>
    obtain ⟨⟨⟩, -, same⟩ := Except.bind_eq_ok_iff.1 h
    cases same
    refine ⟨?_, ?_, ?_, distinct⟩
    · simp [signatures, Item.clause, Clause.signature?]
    · simp [functors, Item.clause, Clause.functor?, Node.bare]
    · simp [root, Item.clause, Clause.root?]
  | expression body span =>
    rw [Draft.add] at h
    split at h
    · cases h
    next none =>
      obtain ⟨⟨⟩, -, same⟩ := Except.bind_eq_ok_iff.1 h
      cases same
      rw [none] at root
      refine ⟨?_, ?_, ?_, distinct⟩
      · simp [signatures, Item.clause, Clause.signature?]
      · simp [functors, Item.clause, Clause.functor?]
      · simp [← root, Item.clause, Clause.root?]

theorem addAll {items : List Item} (holds : d.Holds cs)
    (h : d.addAll declared k items = .ok d') : d'.Holds (cs ++ items.map Item.clause) := by
  induction items generalizing d k cs with
  | nil =>
    cases h
    rwa [List.map_nil, List.append_nil]
  | cons item rest ih =>
    obtain ⟨middle, first, later⟩ := Except.bind_eq_ok_iff.1 h
    have all := ih (holds.add first) later
    rwa [List.append_assoc] at all

/-- The names in the signature table. -/
theorem map_fst_signatures (holds : d.Holds cs) :
    d.signatures.map (·.1) = (cs.filterMap Clause.signature?).map (·.1) := by
  rw [← holds.signatures, List.map_map]
  rfl

/-- An item can be added if its signature has a new name, its expression is the first one and its
names are in scope. -/
theorem exists_add (holds : d.Holds cs)
    (signatures : (((cs ++ [item.clause]).filterMap Clause.signature?).map (·.1)).Nodup)
    (root : ((cs ++ [item.clause]).filterMap Clause.root?).length ≤ 1)
    (scope : ∀ w ∈ item.words, ∀ x, declared.lookup w.text = some x → x.item < k) :
    ∃ d', d.add declared k item = .ok d' := by
  cases item with
  | signature name ty span =>
    have fresh : name.text ∉ d.signatures.map (·.1) := by
      rw [List.filterMap_append, List.map_append, ← holds.map_fst_signatures] at signatures
      exact fun old ↦ (List.nodup_append.1 signatures).2.2 _ old _ (List.mem_singleton.2 rfl) rfl
    exact ⟨_, Except.bind_eq_ok_iff.2 ⟨_, addSignature_eq_ok_iff.2 ⟨fresh, rfl⟩, rfl⟩⟩
  | functor name body span =>
    exact ⟨_, Except.bind_eq_ok_iff.2 ⟨(), inScope_eq_ok scope, rfl⟩⟩
  | expression body span =>
    have none : d.root = none := by
      rw [List.filterMap_append, List.length_append, ← holds.root, List.length_map] at root
      have only : d.root.toList.length = 0 := Nat.le_zero.1 (Nat.le_of_succ_le_succ root)
      simpa using only
    rw [Draft.add, none]
    exact ⟨_, Except.bind_eq_ok_iff.2 ⟨(), inScope_eq_ok scope, rfl⟩⟩

theorem exists_addAll {items : List Item} (holds : d.Holds cs)
    (signatures : (((cs ++ items.map Item.clause).filterMap Clause.signature?).map (·.1)).Nodup)
    (root : ((cs ++ items.map Item.clause).filterMap Clause.root?).length ≤ 1)
    (scope : ∀ i item, items[i]? = some item →
      ∀ w ∈ item.words, ∀ x, declared.lookup w.text = some x → x.item < k + i) :
    ∃ d', d.addAll declared k items = .ok d' := by
  induction items generalizing d k cs with
  | nil => exact ⟨d, rfl⟩
  | cons item rest ih =>
    rw [List.map_cons, List.append_cons] at signatures root
    have front : (cs ++ [item.clause]).Sublist (cs ++ [item.clause] ++ rest.map Item.clause) :=
      List.sublist_append_left _ _
    obtain ⟨middle, first⟩ := holds.exists_add
      (signatures.sublist ((front.filterMap _).map _))
      (Nat.le_trans (front.filterMap _).length_le root) (scope 0 item rfl)
    have later (i : Nat) (item' : Item) (found : rest[i]? = some item') (w : Word)
        (hw : w ∈ item'.words) (x : Declaration) (hx : declared.lookup w.text = some x) :
        x.item < k + 1 + i := by
      have := scope (i + 1) item' found w hw x hx
      omega
    obtain ⟨d', rest⟩ := ih (holds.add first) signatures root later
    exact ⟨d', Except.bind_eq_ok_iff.2 ⟨middle, first, rest⟩⟩

end Draft.Holds

/-! ## Coherent clauses -/

/-- Whether clauses make up a program. -/
structure Coherent (cs : List Clause) : Prop where
  signatures : ((cs.filterMap Clause.signature?).map (·.1)).Nodup
  functors : ((cs.filterMap Clause.functor?).map (·.1)).Nodup
  root : ∃ n, cs.filterMap Clause.root? = [n]
  /-- no clause refers to a functor behind it -/
  backward : cs.Pairwise fun c d ↦ ∀ f, d.functor? = some f → f.1 ∉ c.references
  /-- no functor refers to itself -/
  irreflexive : ∀ c ∈ cs, ∀ f, c.functor? = some f → f.1 ∉ c.references

theorem functorNames_eq (items : List Item) :
    functorNames items = ((items.map Item.clause).filterMap Clause.functor?).map (·.1) := by
  rw [functorNames, List.filterMap_map, List.map_filterMap]
  refine List.filterMap_congr fun item _ ↦ ?_
  cases item <;> rfl

/-- An item refers to the words that it holds. -/
theorem Item.references_clause (i : Item) : i.clause.references = i.words.map Word.text := by
  cases i with
  | signature => rfl
  | functor name body span => exact body.references_bare
  | expression body span => exact body.references_bare

/-- What is declared is declared by an item. -/
theorem exists_of_mem_declarations {n : Nat} {items : List Item} {name : String} {x : Declaration}
    (h : (name, x) ∈ declarations n items) :
    ∃ j body span, items[j]? = some (.functor ⟨name, x.span⟩ body span) ∧ x.item = n + j := by
  induction items generalizing n with
  | nil => cases h
  | cons item rest ih =>
    -- it is this item or one of the rest
    have later (h : (name, x) ∈ declarations (n + 1) rest) :
        ∃ j body span, (item :: rest)[j]? = some (.functor ⟨name, x.span⟩ body span) ∧
          x.item = n + j := by
      obtain ⟨j, body, span, found, position⟩ := ih h
      exact ⟨j + 1, body, span, found, by omega⟩
    cases item with
    | functor first body span =>
      rcases List.mem_cons.1 h with same | h
      · cases same
        exact ⟨0, body, span, rfl, rfl⟩
      · exact later h
    | signature => exact later h
    | expression => exact later h

namespace Coherent

variable {items : List Item}

/-- The names of an item that are functors are those of earlier items. -/
theorem item_lt (h : Coherent (items.map Item.clause)) {i : Nat} {item : Item}
    (at' : items[i]? = some item) {w : Word} (hw : w ∈ item.words) {x : Declaration}
    (found : (declarations 0 items).lookup w.text = some x) : x.item < i := by
  obtain ⟨j, body, span, atj, position⟩ :=
    exists_of_mem_declarations (mem_of_lookup_eq_some found)
  have refers : w.text ∈ item.clause.references := by
    rw [Item.references_clause]
    exact List.mem_map_of_mem hw
  rw [position, Nat.zero_add]
  rcases Nat.lt_trichotomy j i with lt | rfl | gt
  · exact lt
  · obtain rfl := Option.some.inj (at'.symm.trans atj)
    exact (h.irreflexive _ (List.mem_map_of_mem (List.mem_of_getElem? at')) _ rfl refers).elim
  · obtain ⟨hi, rfl⟩ := List.getElem?_eq_some_iff.1 at'
    obtain ⟨hj, same⟩ := List.getElem?_eq_some_iff.1 atj
    have backward := List.pairwise_iff_getElem.1 (List.pairwise_map.1 h.backward) i j hi hj gt
    rw [same] at backward
    exact (backward _ rfl refers).elim

/-- Items with coherent clauses make a program. -/
theorem exists_build (h : Coherent (items.map Item.clause)) (text : Span) :
    ∃ p, build items text = .ok p := by
  have nothing : (([] : Table Span).map (·.1)).Nodup := .nil
  have distinct : distinctFunctors [] items = .ok () := by
    rw [distinctFunctors_eq_ok_iff nothing, functorNames_eq]
    exact h.functors
  obtain ⟨n, root⟩ := h.root
  obtain ⟨d, added⟩ : ∃ d, Draft.blank.addAll (declarations 0 items) 0 items = .ok d := by
    refine Draft.Holds.blank.exists_addAll h.signatures ?_ fun i item at' w hw x found ↦ ?_
    · rw [List.nil_append, root]
      exact Nat.le_refl 1
    · rw [Nat.zero_add]
      exact h.item_lt at' hw found
  have made := (Draft.Holds.blank.addAll added).root
  rw [List.nil_append, root] at made
  obtain ⟨root, found⟩ : ∃ root, d.root = some root := by
    cases present : d.root with
    | none =>
      rw [present] at made
      cases made
    | some root => exact ⟨root, rfl⟩
  refine ⟨⟨d.signatures, d.functors, root, text⟩, ?_⟩
  refine Except.bind_eq_ok_iff.2 ⟨(), distinct, Except.bind_eq_ok_iff.2 ⟨d, added, ?_⟩⟩
  rw [found]

end Coherent

end Grammar

/-! ## The clauses of a program -/

open Grammar

def Signature.clause (s : Signature) : Clause := .signature s.name s.ty

/-- What a node says at the top of a program. -/
def Node.clause : Node → Clause
  | .functor _ name body _ => .functor name body.bare
  | n => .root n.bare

theorem Signature.render_clause (s : Signature) : s.clause.render = s.render := rfl

theorem Node.render_clause (n : Node) : n.clause.render = n.render := by
  cases n <;> simp [clause, Clause.render, render]

theorem Node.references_clause (n : Node) : n.clause.references = n.references := by
  cases n <;> simp [clause, Clause.references, references, bare]

namespace Program

/-- The lines of a program. -/
def clauses (p : Program) : List Clause :=
  p.signatures.map (·.2.clause) ++ p.functors.map (·.2.clause) ++ [p.root.clause]

theorem render_eq (p : Program) : p.render = "\n".intercalate (p.clauses.map Clause.render) := by
  simp [render, clauses, Function.comp_def, Node.render_clause, Signature.render_clause]

/-- Whether a program consists of what clauses say. -/
structure Holds (p : Program) (cs : List Clause) : Prop where
  signatures : p.bare.signatures = cs.filterMap Clause.signature?
  functors : p.bare.functors = cs.filterMap Clause.functor?
  root : [p.bare.root] = cs.filterMap Clause.root?

theorem Holds.bare_eq {p q : Program} {cs : List Clause} (hp : p.Holds cs) (hq : q.Holds cs) :
    q.bare = p.bare := by
  have signatures := hq.signatures.trans hp.signatures.symm
  have functors := hq.functors.trans hp.functors.symm
  have root := List.singleton_inj.1 (hq.root.trans hp.root.symm)
  show Program.mk q.bare.signatures q.bare.functors q.bare.root .nowhere = p.bare
  rw [signatures, functors, root]
  rfl

/-- A program that items make consists of what they say. -/
theorem holds_of_build {items : List Item} {text : Span} {p : Program}
    (h : build items text = .ok p) :
    p.Holds (items.map Item.clause) ∧ (p.signatures.map (·.1)).Nodup := by
  obtain ⟨⟨⟩, -, h⟩ := Except.bind_eq_ok_iff.1 h
  obtain ⟨d, added, h⟩ := Except.bind_eq_ok_iff.1 h
  obtain ⟨signatures, functors, root, distinct⟩ := Draft.Holds.blank.addAll added
  split at h
  next n found =>
    cases h
    rw [found] at root
    exact ⟨⟨signatures, functors, root⟩, distinct⟩
  next => cases h

namespace Holds

variable {p : Program} {cs : List Clause}

/-- An entry of the signature table comes from a clause. -/
theorem signature_mem (holds : p.Holds cs) {s : String × Signature} (hs : s ∈ p.signatures) :
    s.1 = s.2.name ∧ s.2.clause ∈ cs := by
  have mem : (s.1, s.2.bare) ∈ cs.filterMap Clause.signature? := by
    rw [← holds.signatures]
    exact List.mem_map_of_mem hs
  obtain ⟨c, hc, entry⟩ := List.mem_filterMap.1 mem
  obtain ⟨key, name, ty, span⟩ := s
  cases c with
  | signature => cases entry; exact ⟨rfl, hc⟩
  | functor | root => cases entry

end Holds

namespace WellFormed

variable {p : Program} (wf : p.WellFormed)
include wf

/-- An entry of the functor table declares its name. -/
theorem clause_functor {f : String × Node} (hf : f ∈ p.functors) :
    ∃ body, f.2.bare = .functor 0 f.1 body .nowhere ∧ f.2.clause = .functor f.1 body := by
  obtain ⟨id, body, span, shape, -⟩ := wf.entry f hf
  rw [shape]
  exact ⟨body.bare, rfl, rfl⟩

/-- The root declares nothing. -/
theorem clause_root : p.root.clause = .root p.root.bare := by
  have expr := wf.root
  generalize p.root = n at expr
  cases n with
  | functor => exact expr.elim
  | _ => rfl

/-- What a program says is legible if it consists of what legible clauses say. -/
theorem legible_clauses {cs : List Clause} (holds : p.Holds cs) (legible : ∀ c ∈ cs, c.Legible) :
    ∀ c ∈ p.clauses, c.Legible := by
  intro c hc
  simp only [clauses, List.mem_append, List.mem_map, List.mem_singleton] at hc
  rcases hc with (⟨s, hs, rfl⟩ | ⟨f, hf, rfl⟩) | rfl
  · exact legible _ (holds.signature_mem hs).2
  · obtain ⟨body, bare, clause⟩ := wf.clause_functor hf
    have mem : (f.1, f.2.bare) ∈ cs.filterMap Clause.functor? := by
      rw [← holds.functors]
      exact List.mem_map_of_mem hf
    obtain ⟨c, hc, entry⟩ := List.mem_filterMap.1 mem
    rw [bare] at entry
    rw [clause]
    cases c with
    | functor => cases entry; exact legible _ hc
    | signature | root => cases entry
  · have mem : p.root.bare ∈ cs.filterMap Clause.root? := by
      rw [← holds.root]
      exact List.mem_singleton.2 rfl
    obtain ⟨c, hc, entry⟩ := List.mem_filterMap.1 mem
    rw [wf.clause_root]
    cases c with
    | root => cases entry; exact legible _ hc
    | signature | functor => cases entry

/-- What a property of clauses yields along the lines of a program. -/
theorem filterMap_clauses {α : Type} (g : Clause → Option α) :
    p.clauses.filterMap g = p.signatures.filterMap (fun s ↦ g s.2.clause) ++
      p.functors.filterMap (fun f ↦ g f.2.clause) ++ (g (.root p.root.bare)).toList := by
  rw [clauses, wf.clause_root, List.filterMap_append, List.filterMap_append, List.filterMap_map,
    List.filterMap_map]
  cases found : g (.root p.root.bare) with
  | none => simp [found]
  | some a => simp [found]

/-- A well-formed program consists of what it says. -/
theorem holds_clauses (keys : ∀ s ∈ p.signatures, s.1 = s.2.name) : p.Holds p.clauses := by
  -- what a functor does not yield, the functor table does not yield
  have none {α : Type} (g : Clause → Option α) (h : ∀ name body, g (.functor name body) = none) :
      p.functors.filterMap (fun f ↦ g f.2.clause) = [] := by
    refine List.filterMap_eq_nil_iff.2 fun f hf ↦ ?_
    obtain ⟨body, -, clause⟩ := wf.clause_functor hf
    rw [clause, h]
  constructor
  · have own : p.signatures.filterMap (fun s ↦ s.2.clause.signature?) = p.bare.signatures := by
      show _ = p.signatures.map fun s ↦ (s.1, s.2.bare)
      rw [← List.filterMap_eq_map]
      refine List.filterMap_congr fun s hs ↦ ?_
      rw [Function.comp_apply, keys s hs]
      rfl
    rw [wf.filterMap_clauses, own, none _ fun _ _ ↦ rfl]
    simp [Clause.signature?]
  · have own : p.functors.filterMap (fun f ↦ f.2.clause.functor?) = p.bare.functors := by
      show _ = p.functors.map fun f ↦ (f.1, f.2.bare)
      rw [← List.filterMap_eq_map]
      refine List.filterMap_congr fun f hf ↦ ?_
      obtain ⟨body, bare, clause⟩ := wf.clause_functor hf
      rw [Function.comp_apply, bare, clause]
      rfl
    rw [wf.filterMap_clauses, own]
    simp [Signature.clause, Clause.functor?]
  · rw [wf.filterMap_clauses, none _ fun _ _ ↦ rfl]
    simp [Signature.clause, Clause.root?, bare]

/-- What a well-formed program says is coherent: signatures refer to nothing, and the root declares
nothing. -/
theorem coherent_clauses (keys : ∀ s ∈ p.signatures, s.1 = s.2.name)
    (distinct : (p.signatures.map (·.1)).Nodup) : Coherent p.clauses := by
  have holds := wf.holds_clauses keys
  -- only functors declare something, and they declare their own names
  have declares (f : String × Node) (hf : f ∈ p.functors) (x : String × Node)
      (h : f.2.clause.functor? = some x) : x.1 = f.1 := by
    obtain ⟨body, -, clause⟩ := wf.clause_functor hf
    rw [clause] at h
    cases h
    rfl
  have silent (x : String × Node) : p.root.clause.functor? ≠ some x := by
    rw [wf.clause_root]
    nofun
  constructor
  · rwa [← holds.signatures, bare, List.map_map]
  · rw [← holds.functors, bare, List.map_map]
    exact wf.distinct
  · exact ⟨_, holds.root.symm⟩
  · rw [clauses, List.pairwise_append, List.pairwise_append]
    refine ⟨⟨?_, ?_, ?_⟩, List.pairwise_singleton _ _, ?_⟩
    · exact List.pairwise_map.2 (List.pairwise_of_forall fun _ _ _ ↦ nofun)
    · refine List.pairwise_map.2 (wf.backward.imp_of_mem fun {f g} hf hg notMem x h ↦ ?_)
      rw [declares g hg x h, Node.references_clause]
      exact notMem
    · intro c hc d _ x _
      obtain ⟨s, -, rfl⟩ := List.mem_map.1 hc
      exact List.not_mem_nil
    · intro c _ d hd x h
      obtain rfl := List.mem_singleton.1 hd
      exact (silent x h).elim
  · intro c hc x h
    simp only [clauses, List.mem_append, List.mem_map, List.mem_singleton] at hc
    rcases hc with (⟨s, hs, rfl⟩ | ⟨f, hf, rfl⟩) | rfl
    · cases h
    · rw [declares f hf x h, Node.references_clause]
      exact wf.irreflexive f hf
    · exact (silent x h).elim

end WellFormed

/-- A parsed program is parsed again from its canonical text, up to ids and places. -/
theorem parse_render {text : String} {p : Program} (h : Program.parse text = .ok p) :
    ∃ q, Program.parse p.render = .ok q ∧ q.bare = p.bare := by
  have wf := wellFormed_of_parse h
  obtain ⟨items, reads, builds⟩ := Except.bind_eq_ok_iff.1 h
  obtain ⟨holds, distinct⟩ := holds_of_build (Except.mapError_eq_ok_iff.1 builds)
  have keys (s : String × Signature) (hs : s ∈ p.signatures) := (holds.signature_mem hs).1
  -- the lines of the program are legible, since they come from a text
  have legible : ∀ c ∈ p.clauses, c.Legible := by
    refine wf.legible_clauses holds fun c hc ↦ ?_
    obtain ⟨i, hi, rfl⟩ := List.mem_map.1 hc
    exact (read_legible (Except.mapError_eq_ok_iff.1 reads) i hi).clause
  obtain ⟨lines, readsLines, same⟩ := read_lines legible
  have coherent : Coherent (lines.map Item.clause) := same ▸ wf.coherent_clauses keys distinct
  obtain ⟨q, buildsLines⟩ := coherent.exists_build (spanOf p.render)
  have holdsLines := (holds_of_build buildsLines).1
  rw [same] at holdsLines
  refine ⟨q, ?_, (wf.holds_clauses keys).bare_eq holdsLines⟩
  rw [← render_eq] at readsLines
  exact Except.bind_eq_ok_iff.2 ⟨lines, Except.mapError_eq_ok_iff.2 readsLines,
    Except.mapError_eq_ok_iff.2 buildsLines⟩

/-- A program with products and arrows of both associations, arguments, a functor and layout. -/
theorem parse_render_of_layout :
    let source := "b :: (A * A)->B -> L[a,(B)]  functor f = a × b o c\nf ∘ (f × c) # f\n"
    ∃ p q, Program.parse source = .ok p ∧
      p.render = "b :: (A × A) -> B -> L[a, B]\nfunctor f = ((a × b) ∘ c)\n(f ∘ (f × c))" ∧
      Program.parse p.render = .ok q ∧ q.bare = p.bare := by
  intro source
  obtain ⟨p, parsed, canonical⟩ : ∃ p, Program.parse source = .ok p ∧
      p.render = "b :: (A × A) -> B -> L[a, B]\nfunctor f = ((a × b) ∘ c)\n(f ∘ (f × c))" :=
    ⟨_, Except.eq_ok_get (by decide), by decide +kernel⟩
  obtain ⟨q, again, same⟩ := parse_render parsed
  exact ⟨p, q, parsed, canonical, again, same⟩

end Program

end Taskflow
