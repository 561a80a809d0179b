import Taskflow.Proofs.Grammar.Ids

/-!
# Which items make a program, and which one

Building checks functor names first, and then one item after the other against those before it.
Conditions on the items as a whole (`Buildable`) say when nothing is refused.  A refusal reports
something that is there (`BuildError.Present`) and that breaks one of the conditions, so items are
built if and only if they meet all of them (`exists_build_iff`).  What is built then are the items
themselves, by kind and in order (`Program.Lists`).
-/

namespace Taskflow

namespace Grammar

/-! ## The parts of items -/

namespace Item

def signatureName? : Item → Option String
  | .signature name _ _ => some name.text
  | _ => none

def isExpression : Item → Bool
  | .expression .. => true
  | _ => false

/-- The entry of the signature table that an item makes. -/
def signature? : Item → Option (String × Signature)
  | .signature name ty span => some (name.text, ⟨name.text, ty, span⟩)
  | _ => none

/-- The entry of the functor table that an item makes if its first node gets the id `n`. -/
def functor? (n : NodeId) : Item → Option (String × Node)
  | .functor name body span =>
    some (name.text, .functor (n + body.size) name.text (body.number n).1 span)
  | _ => none

/-- The root that an item makes if its first node gets the id `n`. -/
def root? (n : NodeId) : Item → Option Node
  | .expression body _ => some (body.number n).1
  | _ => none

end Item

/-- Items, each with the id of its first node, or of the next one if it has none. -/
def numbered (n : NodeId) : List Item → List (NodeId × Item)
  | [] => []
  | item :: rest => (n, item) :: numbered (n + item.size) rest

theorem map_snd_numbered (n : NodeId) (items : List Item) :
    (numbered n items).map (·.2) = items := by
  induction items generalizing n with
  | nil => rfl
  | cons item rest ih => exact congrArg (item :: ·) (ih _)

theorem mem_of_mem_numbered {n m : NodeId} {items : List Item} {item : Item}
    (h : (m, item) ∈ numbered n items) : item ∈ items := by
  rw [← map_snd_numbered n items]
  exact List.mem_map_of_mem h

theorem length_roots (n : NodeId) (items : List Item) :
    ((numbered n items).filterMap fun x ↦ x.2.root? x.1).length =
      items.countP Item.isExpression := by
  induction items generalizing n with
  | nil => rfl
  | cons item rest ih =>
    cases item with
    | signature => exact ih _
    | functor => exact ih _
    | expression body span =>
      rw [List.countP_cons_of_pos rfl, ← ih (n + body.size)]
      rfl

/-- Whether items make a program. -/
structure Buildable (items : List Item) : Prop where
  functors : (functorNames items).Nodup
  signatures : (items.filterMap Item.signatureName?).Nodup
  root : items.countP Item.isExpression = 1
  /-- no item names the functor that it declares -/
  irreflexive : ∀ i ∈ items, ∀ w ∈ i.words, i.functorName? ≠ some w.text
  /-- no item names a functor that is declared behind it -/
  backward : items.Pairwise fun i j ↦ ∀ w ∈ i.words, j.functorName? ≠ some w.text

/-- Whether items in a text are at fault as an error reports. -/
inductive BuildError.Present (items : List Item) (text : Span) : BuildError → Prop
  | duplicateFunctor {name : Word} {first : Span} {body body' : Expr} {span span' : Span} :
      [.functor ⟨name.text, first⟩ body span, .functor name body' span'].Sublist items →
      Present items text (.duplicateFunctor name first)
  | duplicateSignature {word word' : Word} {ty ty' : Ty} {first again : Span} :
      word.text = word'.text →
      [.signature word ty first, .signature word' ty' again].Sublist items →
      Present items text (.duplicateSignature word'.text again first)
  | selfReference {name : Word} {place : Span} {body : Expr} {span : Span} :
      .functor ⟨name.text, place⟩ body span ∈ items → name ∈ body.words →
      Present items text (.selfReference name)
  | usedBeforeDeclaration {i : Item} {name : Word} {declared : Span} {body : Expr} {span : Span} :
      [i, .functor ⟨name.text, declared⟩ body span].Sublist items → name ∈ i.words →
      Present items text (.usedBeforeDeclaration name declared)
  | secondExpression {body body' : Expr} {span again : Span} :
      [.expression body span, .expression body' again].Sublist items →
      Present items text (.secondExpression again body.span)
  | noExpression : (∀ i ∈ items, i.isExpression = false) → Present items text (.noExpression text)

/-- What is at fault breaks a condition. -/
theorem BuildError.Present.not_buildable {items : List Item} {text : Span} {e : BuildError}
    (h : e.Present items text) : ¬Buildable items := by
  intro buildable
  cases h with
  | @duplicateFunctor name first body body' span span' two =>
    have twice : [name.text, name.text].Sublist (functorNames items) :=
      two.filterMap Item.functorName?
    simpa using buildable.functors.sublist twice
  | @duplicateSignature word word' ty ty' first again same two =>
    have twice : [word.text, word'.text].Sublist (items.filterMap Item.signatureName?) :=
      two.filterMap Item.signatureName?
    simpa [same] using buildable.signatures.sublist twice
  | selfReference declares names => exact buildable.irreflexive _ declares _ names rfl
  | usedBeforeDeclaration two names =>
    exact List.rel_of_pairwise_cons (buildable.backward.sublist two) List.mem_cons_self _ names rfl
  | secondExpression two =>
    have twice := two.countP_le (p := Item.isExpression)
    rw [buildable.root] at twice
    exact Nat.not_succ_le_self 1 twice
  | noExpression nowhere =>
    have none := List.countP_eq_zero.2 fun i hi ↦ Bool.eq_false_iff.1 (nowhere i hi)
    rw [buildable.root] at none
    cases none

/-! ## What a draft lists -/

namespace Draft

variable {declared : Table Declaration} {k : Nat} {d d' : Draft} {item : Item} {items : List Item}

/-- What an item adds to a draft. -/
theorem eq_of_add (h : d.add declared k item = .ok d') :
    d'.signatures = d.signatures ++ item.signature?.toList ∧
    d'.functors = d.functors ++ (item.functor? d.next).toList ∧
    d'.root.toList = d.root.toList ++ (item.root? d.next).toList ∧
    d'.next = d.next + item.size := by
  cases item with
  | signature name ty span =>
    obtain ⟨table, adds, same⟩ := Except.bind_eq_ok_iff.1 h
    obtain ⟨-, rfl⟩ := addSignature_eq_ok_iff.1 adds
    cases same
    exact ⟨rfl, (List.append_nil _).symm, (List.append_nil _).symm, rfl⟩
  | functor name body span =>
    obtain ⟨⟨⟩, -, same⟩ := Except.bind_eq_ok_iff.1 h
    cases same
    refine ⟨(List.append_nil _).symm, ?_, (List.append_nil _).symm, ?_⟩
    · rw [Expr.number_snd]
      rfl
    · rw [Expr.number_snd]
      rfl
  | expression body span =>
    rw [add] at h
    split at h
    · cases h
    next none =>
      obtain ⟨⟨⟩, -, same⟩ := Except.bind_eq_ok_iff.1 h
      cases same
      refine ⟨(List.append_nil _).symm, (List.append_nil _).symm, ?_, body.number_snd d.next⟩
      rw [none]
      rfl

/-- What items add to a draft. -/
theorem eq_of_addAll (h : d.addAll declared k items = .ok d') :
    d'.signatures = d.signatures ++ items.filterMap Item.signature? ∧
    d'.functors = d.functors ++ (numbered d.next items).filterMap (fun x ↦ x.2.functor? x.1) ∧
    d'.root.toList =
      d.root.toList ++ (numbered d.next items).filterMap (fun x ↦ x.2.root? x.1) := by
  induction items generalizing d k with
  | nil =>
    cases h
    simp [numbered]
  | cons item rest ih =>
    obtain ⟨middle, first, later⟩ := Except.bind_eq_ok_iff.1 h
    obtain ⟨signatures, functors, root, next⟩ := eq_of_add first
    obtain ⟨signatures', functors', root'⟩ := ih later
    have step {α β : Type} (f : α → Option β) (a : α) (l : List α) :
        (a :: l).filterMap f = (f a).toList ++ l.filterMap f := by
      rw [List.filterMap_cons]
      cases f a <;> rfl
    rw [numbered, step, step, step, ← List.append_assoc, ← List.append_assoc, ← List.append_assoc]
    exact ⟨signatures ▸ signatures', functors ▸ next ▸ functors', root ▸ next ▸ root'⟩

/-- The names of items that were added were in scope. -/
theorem inScope_of_addAll (h : d.addAll declared k items = .ok d') {i : Nat}
    (at' : items[i]? = some item) : inScope declared (k + i) item.words = .ok () := by
  induction items generalizing d k i with
  | nil => cases at'
  | cons _ rest ih =>
    obtain ⟨middle, added, later⟩ := Except.bind_eq_ok_iff.1 h
    cases i with
    | succ i =>
      have behind := ih later at'
      rwa [Nat.add_assoc, Nat.add_comm 1] at behind
    | zero =>
      cases at'
      cases item with
      | signature => rfl
      | functor =>
        obtain ⟨⟨⟩, found, -⟩ := Except.bind_eq_ok_iff.1 added
        exact found
      | expression =>
        rw [add] at added
        split at added
        · cases added
        · obtain ⟨⟨⟩, found, -⟩ := Except.bind_eq_ok_iff.1 added
          exact found

/-- Items are refused at one of them, when those before it have been added. -/
theorem exists_add_eq_error {e : BuildError} (h : d.addAll declared k items = .error e) :
    ∃ before item after d', items = before ++ item :: after ∧
      d.addAll declared k before = .ok d' ∧
      d'.add declared (k + before.length) item = .error e := by
  induction items generalizing d k with
  | nil => cases h
  | cons item rest ih =>
    rw [addAll] at h
    cases added : d.add declared k item with
    | error e' =>
      rw [added] at h
      cases h
      exact ⟨[], item, rest, d, rfl, rfl, added⟩
    | ok middle =>
      rw [added] at h
      obtain ⟨before, item', after, d', rfl, adds, refused⟩ := ih h
      refine ⟨item :: before, item', after, d', rfl, ?_, ?_⟩
      · exact Except.bind_eq_ok_iff.2 ⟨middle, added, adds⟩
      · rwa [List.length_cons, Nat.add_comm before.length, ← Nat.add_assoc]

end Draft

/-! ## Refusals -/

section

variable {declared : Table Declaration} {items : List Item} {text : Span} {e : BuildError}

theorem exists_of_inScope_eq_error {position : Nat} {ws : List Word}
    (h : inScope declared position ws = .error e) :
    ∃ w ∈ ws, ∃ x, declared.lookup w.text = some x ∧
      (x.item = position ∧ e = .selfReference w ∨
        position < x.item ∧ e = .usedBeforeDeclaration w x.span) := by
  induction ws with
  | nil => cases h
  | cons w rest ih =>
    have later (h : inScope declared position rest = .error e) :
        ∃ w' ∈ w :: rest, ∃ x, declared.lookup w'.text = some x ∧
          (x.item = position ∧ e = .selfReference w' ∨
            position < x.item ∧ e = .usedBeforeDeclaration w' x.span) := by
      obtain ⟨w', hw', found⟩ := ih h
      exact ⟨w', List.mem_cons_of_mem _ hw', found⟩
    rw [inScope] at h
    split at h
    next => exact later h
    next x found =>
      split at h
      next here =>
        cases h
        exact ⟨w, List.mem_cons_self, x, found, .inl ⟨here, rfl⟩⟩
      next =>
        split at h
        next behind =>
          cases h
          exact ⟨w, List.mem_cons_self, x, found, .inr ⟨behind, rfl⟩⟩
        next => exact later h

/-- Two items, one of which stands before the other. -/
theorem sublist_of_mem {before after : List Item} {i j : Item} (hi : i ∈ before) :
    [i, j].Sublist (before ++ j :: after) :=
  (List.singleton_sublist.2 hi).append (List.singleton_sublist.2 List.mem_cons_self)

/-- A name that is refused in an item names a functor of that item or one behind it. -/
theorem BuildError.Present.of_inScope {before after : List Item} {item : Item}
    (whole : items = before ++ item :: after)
    (h : inScope (declarations 0 items) before.length item.words = .error e) :
    e.Present items text := by
  obtain ⟨w, hw, x, found, at'⟩ := exists_of_inScope_eq_error h
  obtain ⟨j, body, span, atj, position⟩ :=
    exists_of_mem_declarations (mem_of_lookup_eq_some found)
  rw [position, Nat.zero_add] at at'
  rcases at' with ⟨rfl, rfl⟩ | ⟨behind, rfl⟩
  · have here : item = .functor ⟨w.text, x.span⟩ body span := by
      simpa [whole] using atj
    refine .selfReference (List.mem_of_getElem? atj) ?_
    rwa [here] at hw
  · obtain ⟨n, rfl⟩ := Nat.exists_eq_add_of_lt behind
    have mem : .functor ⟨w.text, x.span⟩ body span ∈ after := by
      refine List.mem_of_getElem? (i := n) ?_
      rw [← atj, whole, Nat.add_assoc, List.getElem?_append_right (Nat.le_add_right ..),
        Nat.add_sub_cancel_left, List.getElem?_cons_succ]
    have two := ((List.singleton_sublist.2 mem).cons_cons item).trans
      (List.sublist_append_right before _)
    exact .usedBeforeDeclaration (whole ▸ two) hw

/-- A functor that is refused has the name of one before it. -/
theorem BuildError.Present.of_distinctFunctors {seen : Table Span} {before : List Item}
    (known : ∀ x ∈ seen, ∃ body span, .functor ⟨x.1, x.2⟩ body span ∈ before)
    (h : distinctFunctors seen items = .error e) : e.Present (before ++ items) text := by
  induction items generalizing seen before with
  | nil => cases h
  | cons item rest ih =>
    have later {seen' : Table Span} (h : distinctFunctors seen' rest = .error e)
        (known : ∀ x ∈ seen', ∃ body span, .functor ⟨x.1, x.2⟩ body span ∈ before ++ [item]) :
        e.Present (before ++ item :: rest) text := by
      rw [List.append_cons]
      exact ih known h
    have old (x : String × Span) (hx : x ∈ seen) :
        ∃ body span, .functor ⟨x.1, x.2⟩ body span ∈ before ++ [item] := by
      obtain ⟨body, span, mem⟩ := known x hx
      exact ⟨body, span, List.mem_append_left _ mem⟩
    cases item with
    | signature => exact later h old
    | expression => exact later h old
    | functor name body span =>
      rw [distinctFunctors] at h
      split at h
      next first found =>
        cases h
        obtain ⟨body', span', mem⟩ := known _ (mem_of_lookup_eq_some found)
        exact .duplicateFunctor (sublist_of_mem mem)
      next =>
        refine later h fun x hx ↦ ?_
        rcases List.mem_append.1 hx with hx | hx
        · exact old x hx
        · obtain rfl := List.mem_singleton.1 hx
          exact ⟨body, span, List.mem_append_right _ List.mem_cons_self⟩

/-- An item that is refused is at fault, given those before it. -/
theorem BuildError.Present.of_add {before after : List Item} {item : Item} {d : Draft}
    (whole : items = before ++ item :: after)
    (made : Draft.blank.addAll (declarations 0 items) 0 before = .ok d)
    (h : d.add (declarations 0 items) before.length item = .error e) :
    e.Present items text := by
  obtain ⟨signatures, -, root⟩ := Draft.eq_of_addAll made
  cases item with
  | signature name ty span =>
    rcases Except.bind_eq_error_iff.1 h with h | ⟨_, -, ⟨⟩⟩
    rw [addSignature] at h
    split at h
    next first found =>
      cases h
      have mem := mem_of_lookup_eq_some found
      rw [signatures] at mem
      obtain ⟨i, hi, makes⟩ := List.mem_filterMap.1 mem
      cases i with
      | signature word ty' span' =>
        obtain ⟨same, rfl⟩ := Prod.mk.inj (Option.some.inj makes)
        exact .duplicateSignature same (whole ▸ sublist_of_mem hi)
      | functor | expression => cases makes
    next => cases h
  | functor name body span =>
    rcases Except.bind_eq_error_iff.1 h with h | ⟨_, -, ⟨⟩⟩
    exact .of_inScope whole h
  | expression body span =>
    rw [Draft.add] at h
    split at h
    next r found =>
      cases h
      have mem : r ∈ d.root.toList := by
        rw [found]
        exact List.mem_singleton.2 rfl
      rw [root] at mem
      obtain ⟨⟨n, i⟩, hi, makes⟩ := List.mem_filterMap.1 mem
      cases i with
      | expression body' span' =>
        obtain rfl := Option.some.inj makes
        rw [Expr.span_number]
        exact .secondExpression (whole ▸ sublist_of_mem (mem_of_mem_numbered hi))
      | signature | functor => cases makes
    next =>
      rcases Except.bind_eq_error_iff.1 h with h | ⟨_, -, ⟨⟩⟩
      exact .of_inScope whole h

/-- What building refuses is at fault as reported. -/
theorem BuildError.Present.of_build (h : build items text = .error e) : e.Present items text := by
  rcases Except.bind_eq_error_iff.1 h with h | ⟨⟨⟩, -, h⟩
  · have known (x : String × Span) (hx : x ∈ []) :
        ∃ body span, Item.functor ⟨x.1, x.2⟩ body span ∈ [] := nomatch hx
    exact .of_distinctFunctors known h
  · rcases Except.bind_eq_error_iff.1 h with h | ⟨d, added, h⟩
    · obtain ⟨before, item, after, d', whole, made, refused⟩ := Draft.exists_add_eq_error h
      rw [Nat.zero_add] at refused
      exact .of_add whole made refused
    · split at h
      · cases h
      next none =>
        cases h
        obtain ⟨-, -, root⟩ := Draft.eq_of_addAll added
        have count := congrArg List.length root
        rw [none, List.length_append, length_roots] at count
        have nowhere := List.countP_eq_zero.1 (Nat.eq_zero_of_add_eq_zero_left count.symm)
        exact .noExpression fun i hi ↦ Bool.eq_false_iff.2 (nowhere i hi)

end

/-! ## Programs -/

end Grammar

open Grammar

/-- Whether a program consists of the items of a text: the tables and the root hold what the items
of each kind make, each once and in order. -/
structure Program.Lists (p : Program) (items : List Item) (text : Span) : Prop where
  signatures : p.signatures = items.filterMap Item.signature?
  functors : p.functors = (numbered 0 items).filterMap fun x ↦ x.2.functor? x.1
  root : [p.root] = (numbered 0 items).filterMap fun x ↦ x.2.root? x.1
  span : p.span = text

/-- What items are built to consists of them. -/
theorem Program.Lists.of_build {items : List Item} {text : Span} {p : Program}
    (h : build items text = .ok p) : p.Lists items text := by
  obtain ⟨⟨⟩, -, h⟩ := Except.bind_eq_ok_iff.1 h
  obtain ⟨d, added, h⟩ := Except.bind_eq_ok_iff.1 h
  obtain ⟨signatures, functors, root⟩ := Draft.eq_of_addAll added
  split at h
  next r found =>
    cases h
    rw [found] at root
    exact ⟨signatures, functors, root, rfl⟩
  next => cases h

namespace Grammar

theorem Item.map_fst_signatures (items : List Item) :
    (items.filterMap Item.signature?).map (·.1) = items.filterMap Item.signatureName? := by
  rw [List.map_filterMap]
  refine List.filterMap_congr fun i _ ↦ ?_
  cases i <;> rfl

/-- Items that were built meet the conditions. -/
theorem Buildable.of_build {items : List Item} {text : Span} {p : Program}
    (h : build items text = .ok p) : Buildable items := by
  have lists := Program.Lists.of_build h
  have signatures := (Program.holds_of_build h).2
  obtain ⟨⟨⟩, first, rest⟩ := Except.bind_eq_ok_iff.1 h
  obtain ⟨d, added, -⟩ := Except.bind_eq_ok_iff.1 rest
  have nothing : (([] : Table Span).map (·.1)).Nodup := .nil
  have functors := (distinctFunctors_eq_ok_iff nothing).1 first
  -- a name in an item is no functor of that item or of one behind it
  have earlier {i j : Nat} {a b : Item} (hi : items[i]? = some a) (hj : items[j]? = some b)
      (le : i ≤ j) {w : Word} (hw : w ∈ a.words) : b.functorName? ≠ some w.text := by
    intro declares
    have later : w.text ∈ functorNames (items.drop i) := by
      refine List.mem_filterMap.2 ⟨b, ?_, declares⟩
      refine List.mem_of_getElem? (i := j - i) ?_
      rw [List.getElem?_drop, Nat.add_sub_cancel' le, hj]
    obtain ⟨x, found, behind⟩ := lookup_declarations (n := 0) functors later
    have before := item_lt_of_inScope (Draft.inScope_of_addAll added hi) w hw x found
    exact Nat.not_lt.2 behind before
  refine ⟨functors, ?_, ?_, fun a ha w hw ↦ ?_,
    List.pairwise_iff_getElem.2 fun i j hi hj lt w hw ↦ ?_⟩
  · rwa [lists.signatures, Item.map_fst_signatures] at signatures
  · rw [← length_roots 0, ← lists.root]
    rfl
  · obtain ⟨i, hi⟩ := List.getElem?_of_mem ha
    exact earlier hi hi (Nat.le_refl i) hw
  · exact earlier (List.getElem?_eq_getElem hi) (List.getElem?_eq_getElem hj) (Nat.le_of_lt lt) hw

/-- Items make a program if and only if they meet the conditions. -/
theorem exists_build_iff {items : List Item} {text : Span} :
    (∃ p, build items text = .ok p) ↔ Buildable items := by
  constructor
  · rintro ⟨p, h⟩
    exact .of_build h
  · intro buildable
    cases h : build items text with
    | ok p => exact ⟨p, rfl⟩
    | error e => exact (BuildError.Present.of_build h).not_buildable buildable |>.elim

end Grammar

theorem Program.parse_eq_ok_iff {text : String} {p : Program} :
    Program.parse text = .ok p ↔
      ∃ items, read .program text = .ok items ∧ build items (spanOf text) = .ok p := by
  refine Except.bind_eq_ok_iff.trans (exists_congr fun items ↦ ?_)
  exact and_congr Except.mapError_eq_ok_iff Except.mapError_eq_ok_iff

end Taskflow
