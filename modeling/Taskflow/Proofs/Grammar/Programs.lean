import Taskflow.Proofs.Grammar.Numbering

/-!
# Parsed programs are well-formed

Building goes through the items of a text once.  `Draft.Sound` is what holds of the program in
progress between two items, given the names of the functors that are still to come: nothing that
has been built refers to one of those, since scoping has refused every name that is declared at the
present item or later.  When no item is left this is the scoping of the functor table.

The nodes of the program are those that `nodesFrom` numbers item by item (`nodes_addAll`); from
there come distinct ids and, with the order of words in the text, distinct extents.
-/

namespace Taskflow.Grammar

/-! ## Names of functors -/

/-- The name of the functor that an item declares. -/
def Item.functorName? : Item → Option String
  | .functor name _ _ => some name.text
  | _ => none

/-- The names of the functors that items declare. -/
def functorNames (items : List Item) : List String := items.filterMap Item.functorName?

/-- What is checked first: functor names are distinct. -/
theorem distinctFunctors_eq_ok_iff {seen : Table Span} {items : List Item}
    (nodup : (seen.map (·.1)).Nodup) :
    distinctFunctors seen items = .ok () ↔ (seen.map (·.1) ++ functorNames items).Nodup := by
  induction items generalizing seen with
  | nil => simpa [distinctFunctors, functorNames] using nodup
  | cons item rest ih =>
    cases item with
    | functor name body span =>
      have names : functorNames (.functor name body span :: rest) =
          name.text :: functorNames rest := rfl
      rw [distinctFunctors, names]
      split
      next found =>
        -- the name that was found is among those that have been seen
        have old : name.text ∈ seen.map (·.1) := by
          by_contra new
          rw [lookup_eq_none_iff_notMem.2 new] at found
          cases found
        refine iff_of_false nofun fun h ↦ ?_
        exact (List.nodup_append.1 h).2.2 _ old _ List.mem_cons_self rfl
      next fresh =>
        have new := lookup_eq_none_iff_notMem.1 fresh
        have longer : ((seen ++ [(name.text, name.span)]).map (·.1)).Nodup := by
          rw [List.map_append, List.map_singleton, List.nodup_append_comm]
          exact List.nodup_cons.2 ⟨new, nodup⟩
        rw [ih longer, List.map_append, List.append_assoc]
        rfl
    | signature => exact ih nodup
    | expression => exact ih nodup

theorem map_fst_declarations (n : Nat) (items : List Item) :
    (declarations n items).map (·.1) = functorNames items := by
  induction items generalizing n with
  | nil => rfl
  | cons item rest ih =>
    cases item with
    | functor name body span => exact congrArg (name.text :: ·) (ih (n + 1))
    | signature => exact ih (n + 1)
    | expression => exact ih (n + 1)

theorem le_item_of_mem_declarations {n : Nat} {items : List Item} {e : String × Declaration}
    (h : e ∈ declarations n items) : n ≤ e.2.item := by
  induction items generalizing n with
  | nil => cases h
  | cons item rest ih =>
    cases item with
    | functor name body span =>
      rcases List.mem_cons.1 h with rfl | h
      · exact Nat.le_refl n
      · exact Nat.le_of_succ_le (ih h)
    | signature => exact Nat.le_of_succ_le (ih h)
    | expression => exact Nat.le_of_succ_le (ih h)

/-- A name that is declared in item `k` or later is found there. -/
theorem lookup_declarations {items : List Item} (nodup : (functorNames items).Nodup) {n k : Nat}
    {name : String} (h : name ∈ functorNames (items.drop k)) :
    ∃ d, (declarations n items).lookup name = some d ∧ n + k ≤ d.item := by
  induction items generalizing n k with
  | nil => simp [functorNames] at h
  | cons item rest ih =>
    cases k with
    | zero =>
      -- the entry that is found is some entry, and all entries have position `n` or more
      have mem : name ∈ (declarations n (item :: rest)).map (·.1) := by
        rwa [map_fst_declarations]
      obtain ⟨d, found⟩ : ∃ d, (declarations n (item :: rest)).lookup name = some d := by
        refine Option.isSome_iff_exists.1 (List.lookup_isSome_iff.2 ?_)
        obtain ⟨e, he, same⟩ := List.mem_map.1 mem
        exact ⟨e, he, by simp [same]⟩
      exact ⟨d, found, le_item_of_mem_declarations (mem_of_lookup_eq_some found)⟩
    | succ k =>
      have later : functorNames (rest.drop k) ⊆ functorNames rest :=
        ((List.drop_sublist k rest).filterMap _).subset
      cases item with
      | functor first body span =>
        obtain ⟨new, nodup⟩ := List.nodup_cons.1 nodup
        obtain ⟨d, found, le⟩ := ih (n := n + 1) nodup h
        refine ⟨d, ?_, by omega⟩
        have differ : name ≠ first.text := fun same ↦ new (same ▸ later h)
        rw [declarations, lookup_cons_eq_ite, if_neg differ, found]
      | signature =>
        obtain ⟨d, found, le⟩ := ih (n := n + 1) nodup h
        exact ⟨d, found, by omega⟩
      | expression =>
        obtain ⟨d, found, le⟩ := ih (n := n + 1) nodup h
        exact ⟨d, found, by omega⟩

/-- In scope are functors of earlier items alone. -/
theorem item_lt_of_inScope {declared : Table Declaration} {item : Nat} {ws : List Word}
    (h : inScope declared item ws = .ok ()) :
    ∀ w ∈ ws, ∀ d, declared.lookup w.text = some d → d.item < item := by
  induction ws with
  | nil => simp
  | cons w rest ih =>
    rw [inScope] at h
    intro w' mem d found
    split at h
    next none =>
      rcases List.mem_cons.1 mem with rfl | mem
      · rw [none] at found
        cases found
      · exact ih h w' mem d found
    next d' found' =>
      split at h
      · cases h
      next differ =>
        split at h
        · cases h
        next notLater =>
          rcases List.mem_cons.1 mem with rfl | mem
          · obtain rfl := Option.some.inj (found'.symm.trans found)
            omega
          · exact ih h w' mem d found

/-! ## Scoping -/

/-- A program in progress, when the functors `later` are still to come. -/
structure Draft.Sound (d : Draft) (later : List String) : Prop where
  entry : ∀ f ∈ d.functors, ∃ id body span, f.2 = .functor id f.1 body span ∧ body.IsExpr
  root : ∀ n, d.root = some n → n.IsExpr
  distinct : (d.functors.map (·.1) ++ later).Nodup
  backward : d.functors.Pairwise fun f g ↦ g.1 ∉ f.2.references
  irreflexive : ∀ f ∈ d.functors, f.1 ∉ f.2.references
  pending : ∀ f ∈ d.functors, ∀ name ∈ later, name ∉ f.2.references

namespace Draft.Sound

variable {declared : Table Declaration} {k : Nat} {d d' : Draft}

theorem blank {later : List String} (h : later.Nodup) : Draft.blank.Sound later where
  entry := by simp [Draft.blank]
  root := by simp [Draft.blank]
  distinct := by simpa [Draft.blank] using h
  backward := .nil
  irreflexive := by simp [Draft.blank]
  pending := by simp [Draft.blank]

/-- One item after the other keeps a program in progress sound. -/
theorem add {item : Item} {rest : List Item} (sound : d.Sound (functorNames (item :: rest)))
    (known : ∀ name ∈ functorNames (item :: rest),
      ∃ x, declared.lookup name = some x ∧ k ≤ x.item)
    (h : d.add declared k item = .ok d') : d'.Sound (functorNames rest) := by
  cases item with
  | signature name ty span =>
    obtain ⟨signatures, -, same⟩ := Except.bind_eq_ok_iff.1 h
    cases same
    exact ⟨sound.entry, sound.root, sound.distinct, sound.backward, sound.irreflexive,
      sound.pending⟩
  | functor name body span =>
    obtain ⟨⟨⟩, scope, same⟩ := Except.bind_eq_ok_iff.1 h
    cases same
    have unused : ∀ x ∈ name.text :: functorNames rest,
        x ∉ (body.number d.next).1.references := fun x hx ref ↦ by
      rw [Expr.references_number] at ref
      obtain ⟨w, hw, rfl⟩ := List.mem_map.1 ref
      obtain ⟨e, found, le⟩ := known w.text hx
      have := item_lt_of_inScope scope w hw e found
      omega
    refine ⟨?_, sound.root, ?_, ?_, ?_, ?_⟩
    · intro f hf
      rcases List.mem_append.1 hf with hf | hf
      · exact sound.entry f hf
      · obtain rfl := List.mem_singleton.1 hf
        exact ⟨_, _, _, rfl, Expr.isExpr_number _ _⟩
    · have := sound.distinct
      simpa [functorNames, Item.functorName?] using this
    · refine List.pairwise_append.2 ⟨sound.backward, List.pairwise_singleton _ _, ?_⟩
      intro f hf g hg
      obtain rfl := List.mem_singleton.1 hg
      exact sound.pending f hf _ List.mem_cons_self
    · intro f hf
      rcases List.mem_append.1 hf with hf | hf
      · exact sound.irreflexive f hf
      · obtain rfl := List.mem_singleton.1 hf
        exact unused _ List.mem_cons_self
    · intro f hf x hx
      rcases List.mem_append.1 hf with hf | hf
      · exact sound.pending f hf x (List.mem_cons_of_mem _ hx)
      · obtain rfl := List.mem_singleton.1 hf
        exact unused x (List.mem_cons_of_mem _ hx)
  | expression body span =>
    rw [Draft.add] at h
    split at h
    · cases h
    · obtain ⟨⟨⟩, -, same⟩ := Except.bind_eq_ok_iff.1 h
      cases same
      refine ⟨sound.entry, ?_, sound.distinct, sound.backward, sound.irreflexive, sound.pending⟩
      rintro n ⟨⟩
      exact Expr.isExpr_number _ _

theorem addAll {items : List Item} (sound : d.Sound (functorNames items))
    (known : ∀ i, ∀ name ∈ functorNames (items.drop i),
      ∃ x, declared.lookup name = some x ∧ k + i ≤ x.item)
    (h : d.addAll declared k items = .ok d') : d'.Sound [] := by
  induction items generalizing d k with
  | nil =>
    cases h
    exact sound
  | cons item rest ih =>
    obtain ⟨middle, first, later⟩ := Except.bind_eq_ok_iff.1 h
    refine ih (sound.add (known 0) first) (fun i name hname ↦ ?_) later
    obtain ⟨x, found, le⟩ := known (i + 1) name hname
    exact ⟨x, found, by omega⟩

end Draft.Sound

/-! ## Nodes -/

/-- The nodes of items that are numbered from `n` on, in the order of their ids. -/
def nodesFrom (n : NodeId) : List Item → List Node
  | [] => []
  | .signature .. :: rest => nodesFrom n rest
  | .functor name body span :: rest =>
    (body.number n).1.all ++ .functor (n + body.size) name.text (body.number n).1 span ::
      nodesFrom (n + body.size + 1) rest
  | .expression body _ :: rest => (body.number n).1.all ++ nodesFrom (n + body.size) rest

/-- The ids of items are consecutive. -/
theorem map_id_nodesFrom (n : NodeId) (items : List Item) :
    (nodesFrom n items).map Node.id = List.range' n (nodesFrom n items).length := by
  induction items generalizing n with
  | nil => rfl
  | cons item rest ih =>
    cases item with
    | signature => exact ih n
    | functor name body span =>
      have size : (body.number n).1.all.length = body.size := by
        simpa using congrArg List.length (body.map_id_all_number n)
      rw [nodesFrom, List.map_append, List.map_cons, ih, Expr.map_id_all_number,
        List.length_append, List.length_cons, size, Node.id, ← List.range'_append_1,
        List.range'_succ]
    | expression body span =>
      have size : (body.number n).1.all.length = body.size := by
        simpa using congrArg List.length (body.map_id_all_number n)
      rw [nodesFrom, List.map_append, ih, Expr.map_id_all_number, List.length_append, size,
        List.range'_append_1]

/-- The nodes of items that are no declarations. -/
def expressionsFrom (n : NodeId) (items : List Item) : List Node :=
  (nodesFrom n items).filter (!·.isDeclaration)

/-- The nodes of an expression are none. -/
theorem filter_all_number (e : Expr) (n : NodeId) :
    (e.number n).1.all.filter (!·.isDeclaration) = (e.number n).1.all := by
  refine List.filter_eq_self.2 fun m hm ↦ ?_
  rw [((e.isExpr_number n).of_mem hm).isDeclaration_eq]
  rfl

/-- The expressions of items lie among the words of the items, and no two of them have the same
extent. -/
theorem expressionsFrom_spec {items : List Item} (placed : Placed (items.flatMap Item.words))
    (n : NodeId) :
    (∀ m ∈ expressionsFrom n items, m.Among (items.flatMap Item.words)) ∧
      ((expressionsFrom n items).map Node.extent).Nodup := by
  induction items generalizing n with
  | nil => exact ⟨by simp [expressionsFrom, nodesFrom], .nil⟩
  | cons item rest ih =>
    rw [List.flatMap_cons] at placed ⊢
    have behind := placed.sublist (List.sublist_append_right item.words (rest.flatMap Item.words))
    -- an item with a body puts the nodes of the body in front
    have front (body : Expr) (words : body.words = item.words) (n' : NodeId)
        (h : expressionsFrom n (item :: rest) = (body.number n).1.all ++ expressionsFrom n' rest) :
        (∀ m ∈ expressionsFrom n (item :: rest),
            m.Among (item.words ++ rest.flatMap Item.words)) ∧
          ((expressionsFrom n (item :: rest)).map Node.extent).Nodup := by
      rw [h]
      rw [← words] at placed ⊢
      have first := placed.sublist (List.sublist_append_left body.words (rest.flatMap Item.words))
      obtain ⟨among, nodup⟩ := ih behind n'
      refine ⟨fun m hm ↦ ?_, ?_⟩
      · rcases List.mem_append.1 hm with hm | hm
        · exact (Expr.among_number first n m hm).mono (List.subset_append_left _ _)
        · exact (among m hm).mono (List.subset_append_right _ _)
      · exact nodup_extents_append placed (Expr.among_number first n) among
          (Expr.nodup_extents_number first n) nodup
    cases item with
    | signature => exact ih behind n
    | functor name body span =>
      refine front body rfl (n + body.size + 1) ?_
      simp only [expressionsFrom, nodesFrom, List.filter_append, filter_all_number]
      rfl
    | expression body span =>
      refine front body rfl (n + body.size) ?_
      simp only [expressionsFrom, nodesFrom, List.filter_append, filter_all_number]

/-- The nodes of a program in progress. -/
def Draft.nodes (d : Draft) : List Node :=
  d.functors.flatMap (·.2.all) ++ (d.root.map Node.all).getD []

/-- Adding items adds their nodes. -/
theorem Draft.nodes_addAll {declared : Table Declaration} {k : Nat} {d d' : Draft}
    {items : List Item} (h : d.addAll declared k items = .ok d') :
    d'.nodes.Perm (d.nodes ++ nodesFrom d.next items) := by
  induction items generalizing d k with
  | nil =>
    cases h
    simp [nodesFrom]
  | cons item rest ih =>
    obtain ⟨middle, first, later⟩ := Except.bind_eq_ok_iff.1 h
    refine (ih later).trans ?_
    cases item with
    | signature name ty span =>
      obtain ⟨signatures, -, same⟩ := Except.bind_eq_ok_iff.1 first
      cases same
      exact .refl _
    | functor name body span =>
      obtain ⟨⟨⟩, -, same⟩ := Except.bind_eq_ok_iff.1 first
      cases same
      simp only [Draft.nodes, nodesFrom, List.flatMap_append, Expr.number_snd,
        List.flatMap_singleton, Node.all, List.append_assoc]
      have swap := List.perm_append_comm_assoc
        ((body.number d.next).1.all ++ [.functor (d.next + body.size) name.text
          (body.number d.next).1 span])
        ((d.root.map Node.all).getD []) (nodesFrom (d.next + body.size + 1) rest)
      refine .append_left _ ?_
      simpa using swap
    | expression body span =>
      rw [Draft.add] at first
      split at first
      · cases first
      next none =>
        obtain ⟨⟨⟩, -, same⟩ := Except.bind_eq_ok_iff.1 first
        cases same
        simp [Draft.nodes, nodesFrom, none, Expr.number_snd]

/-! ## Programs -/

theorem build_wellFormed {items : List Item} {text : Span} {p : Program}
    (placed : Placed (items.flatMap Item.words)) (h : build items text = .ok p) :
    p.WellFormed := by
  obtain ⟨⟨⟩, distinct, h⟩ := Except.bind_eq_ok_iff.1 h
  obtain ⟨d, added, h⟩ := Except.bind_eq_ok_iff.1 h
  have names : (functorNames items).Nodup := by
    have nothing : (([] : Table Span).map (·.1)).Nodup := .nil
    exact (distinctFunctors_eq_ok_iff nothing).1 distinct
  have sound : d.Sound [] := by
    refine (Draft.Sound.blank names).addAll (fun k name hname ↦ ?_) added
    exact lookup_declarations names hname
  have nodes := Draft.nodes_addAll added
  split at h
  next root found =>
    cases h
    have all : Program.nodes ⟨d.signatures, d.functors, root, text⟩ = d.nodes := by
      simp [Program.nodes, Draft.nodes, found]
    have perm :
        (Program.nodes ⟨d.signatures, d.functors, root, text⟩).Perm (nodesFrom 0 items) := by
      rw [all]
      exact nodes
    refine ⟨sound.entry, sound.root root found, ?_, sound.backward, sound.irreflexive, ?_, ?_⟩
    · simpa using sound.distinct
    · rw [(perm.map Node.id).nodup_iff, map_id_nodesFrom]
      exact List.nodup_range'
    · rw [((perm.filter _).map Node.extent).nodup_iff]
      exact (expressionsFrom_spec placed 0).2
  next => cases h

end Taskflow.Grammar

namespace Taskflow

/-- A program that comes from a text is well-formed. -/
theorem Program.wellFormed_of_parse {text : String} {p : Program}
    (h : Program.parse text = .ok p) : p.WellFormed := by
  obtain ⟨items, reads, builds⟩ := Except.bind_eq_ok_iff.1 h
  exact Grammar.build_wellFormed (Grammar.read_words_placed (Except.mapError_eq_ok_iff.1 reads))
    (Except.mapError_eq_ok_iff.1 builds)

end Taskflow
