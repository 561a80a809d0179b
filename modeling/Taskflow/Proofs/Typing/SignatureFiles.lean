import Taskflow.Proofs.Grammar.SignatureFiles
import Taskflow.Proofs.Typing.Under

/-!
# Signatures in a file and in front

The signatures of tasks can stand in a file of their own, which makes the environment that a program
is checked in, or in front of the program itself.  The reports are the same
(`check_of_signatures_above`): signatures take no ids from what follows them and refer to nothing,
they only move it down.
-/

namespace Taskflow

namespace Grammar

/-! ## Items further down -/

@[simp] theorem Expr.words_under (x : Expr) (b : Position) :
    (x.under b).words = x.words.map (·.under b) := by
  induction x <;> simp_all [under, words]

namespace Item

variable (i : Item) (b stop : Position)

@[simp] theorem functorName?_under : (i.under b).functorName? = i.functorName? := by
  cases i <;> rfl

@[simp] theorem signatureName?_under : (i.under b).signatureName? = i.signatureName? := by
  cases i <;> rfl

@[simp] theorem isExpression_under : (i.under b).isExpression = i.isExpression := by
  cases i <;> rfl

@[simp] theorem declared?_under : (i.under b).declared? = i.declared? := by
  cases i <;> rfl

@[simp] theorem words_under : (i.under b).words = i.words.map (·.under b) := by
  cases i <;> simp [under, words]

@[simp] theorem size_under : (i.under b).size = i.size := by
  cases i <;> simp [under, size]

theorem functor?_under (n : NodeId) :
    (i.under b).functor? n = (i.functor? n).map fun f ↦ (f.1, f.2.under b) := by
  cases i <;> simp [under, functor?, Expr.number_under, Node.under, Word.under]

theorem root?_under (n : NodeId) : (i.under b).root? n = (i.root? n).map (·.under b) := by
  cases i <;> simp [under, root?, Expr.number_under]

theorem declared?_endingAt : (i.endingAt stop).declared? = i.declared? := by
  cases i <;> rfl

theorem signatureName?_endingAt : (i.endingAt stop).signatureName? = i.signatureName? := by
  cases i <;> rfl

theorem filterMap_signatureName?_under (items : List Item) (b : Position) :
    (items.map (·.under b)).filterMap signatureName? = items.filterMap signatureName? := by
  simp [List.filterMap_map]

theorem filterMap_declared?_under (items : List Item) (b : Position) :
    (items.map (·.under b)).filterMap declared? = items.filterMap declared? := by
  simp [List.filterMap_map]

end Item

/-- What does not depend on where an item ends is the same if the last item ends elsewhere. -/
theorem map_lastEndingAt {α : Type} {f : Item → α} (stop : Position)
    (same : ∀ i : Item, ∀ stop, f (i.endingAt stop) = f i) (items : List Item) :
    (lastEndingAt stop items).map f = items.map f := by
  rcases List.eq_nil_or_concat items with rfl | ⟨front, i, rfl⟩
  · rfl
  · rw [List.concat_eq_append, lastEndingAt_concat, List.map_append, List.map_append,
      List.map_singleton, List.map_singleton, same]

theorem filterMap_lastEndingAt {α : Type} {f : Item → Option α} (stop : Position)
    (same : ∀ i : Item, ∀ stop, f (i.endingAt stop) = f i) (items : List Item) :
    (lastEndingAt stop items).filterMap f = items.filterMap f := by
  have mapped (l : List Item) : l.filterMap f = (l.map f).filterMap id := by
    rw [List.filterMap_map, Function.id_comp]
  rw [mapped, map_lastEndingAt stop same, ← mapped]

theorem isSignature_lastEndingAt {items : List Item} (stop : Position)
    (all : ∀ i ∈ items, i.IsSignature) : ∀ i ∈ lastEndingAt stop items, i.IsSignature := by
  have same (i : Item) (stop : Position) : (i.endingAt stop).IsSignature = i.IsSignature := by
    cases i <;> rfl
  intro i hi
  have mem := List.mem_map_of_mem (f := Item.IsSignature) hi
  rw [map_lastEndingAt stop same] at mem
  obtain ⟨j, hj, eq⟩ := List.mem_map.1 mem
  exact eq ▸ all j hj

/-! ## Signatures in front -/

section

variable {front items : List Item} (all : ∀ i ∈ front, i.IsSignature)
include all

/-- Signatures make nothing but entries of the signature table. -/
theorem filterMap_signatures {α : Type} {f : Item → Option α}
    (none : ∀ name ty span, f (.signature name ty span) = none) : front.filterMap f = [] := by
  refine List.filterMap_eq_nil_iff.2 fun i hi ↦ ?_
  have isSignature := all i hi
  cases i with
  | signature => exact none _ _ _
  | functor | expression => exact isSignature.elim

/-- Signatures take no ids. -/
theorem filterMap_numbered_append {α : Type} {f : NodeId × Item → Option α}
    (none : ∀ n name ty span, f (n, .signature name ty span) = none) (n : NodeId) :
    (numbered n (front ++ items)).filterMap f = (numbered n items).filterMap f := by
  induction front with
  | nil => rfl
  | cons i front ih =>
    obtain ⟨isSignature, rest⟩ := List.forall_mem_cons.1 all
    cases i with
    | signature =>
      rw [List.cons_append, numbered, List.filterMap_cons_none (none ..)]
      exact ih rest
    | functor | expression => exact isSignature.elim

theorem words_eq_nil {i : Item} (hi : i ∈ front) : i.words = [] := by
  have isSignature := all i hi
  cases i with
  | signature => rfl
  | functor | expression => exact isSignature.elim

/-- Signatures may be put in front of items that make a program if their names are new. -/
theorem Buildable.signatures_append (buildable : Buildable items)
    (distinct : (front.filterMap Item.signatureName?).Nodup)
    (fresh : ∀ name ∈ front.filterMap Item.signatureName?,
      name ∉ items.filterMap Item.signatureName?) : Buildable (front ++ items) where
  functors := by
    rw [functorNames, List.filterMap_append, filterMap_signatures all fun _ _ _ ↦ rfl]
    exact buildable.functors
  signatures := by
    rw [List.filterMap_append]
    exact List.nodup_append'.2 ⟨distinct, buildable.signatures, fun name h h' ↦ fresh name h h'⟩
  root := by
    have none : front.countP Item.isExpression = 0 := by
      refine List.countP_eq_zero.2 fun i hi ↦ ?_
      have isSignature := all i hi
      cases i with
      | signature => exact Bool.false_ne_true
      | functor | expression => exact isSignature.elim
    rw [List.countP_append, none, Nat.zero_add, buildable.root]
  irreflexive := by
    intro i hi w hw
    rcases List.mem_append.1 hi with hi | hi
    · rw [words_eq_nil all hi] at hw
      cases hw
    · exact buildable.irreflexive i hi w hw
  backward := by
    refine List.pairwise_append.2 ⟨?_, buildable.backward, fun i hi j _ w hw ↦ ?_⟩
    · refine List.pairwise_of_forall_mem_list fun i hi j _ w hw ↦ ?_
      rw [words_eq_nil all hi] at hw
      cases hw
    · rw [words_eq_nil all hi] at hw
      cases hw

end

/-- Items make a program wherever they stand. -/
theorem Buildable.under {items : List Item} (buildable : Buildable items) (b : Position) :
    Buildable (items.map (·.under b)) where
  functors := by
    have names : functorNames (items.map (·.under b)) = functorNames items := by
      simp [functorNames, List.filterMap_map]
    rw [names]
    exact buildable.functors
  signatures := by
    rw [Item.filterMap_signatureName?_under]
    exact buildable.signatures
  root := by
    rw [List.countP_map, ← buildable.root]
    exact List.countP_congr fun i _ ↦ by simp
  irreflexive := by
    simpa [Word.under] using buildable.irreflexive
  backward := by
    simpa [List.pairwise_map, Word.under] using buildable.backward

theorem numbered_under (n : NodeId) (items : List Item) (b : Position) :
    numbered n (items.map (·.under b)) = (numbered n items).map fun x ↦ (x.1, x.2.under b) := by
  induction items generalizing n with
  | nil => rfl
  | cons i items ih => rw [List.map_cons, numbered, ih, numbered, List.map_cons, Item.size_under]

end Grammar

open Grammar

/-! ## Checking -/

namespace Program

/-- Signatures in front of a program only move it down. -/
theorem Lists.under {p q : Program} {front items : List Item} {text text' : Span} {b : Position}
    (signatures : ∀ i ∈ front, i.IsSignature) (hp : p.Lists items text)
    (hq : q.Lists (front ++ items.map (·.under b)) text') : p.Under b q where
  functors := by
    rw [hq.functors, hp.functors, filterMap_numbered_append signatures fun _ _ _ _ ↦ rfl,
      numbered_under, List.filterMap_map, List.map_filterMap]
    exact List.filterMap_congr fun x _ ↦ x.2.functor?_under b x.1
  root := by
    have roots : [q.root] = [p.root].map (·.under b) := by
      rw [hq.root, hp.root, filterMap_numbered_append signatures fun _ _ _ _ ↦ rfl,
        numbered_under, List.filterMap_map, List.map_filterMap]
      exact List.filterMap_congr fun x _ ↦ x.2.root?_under b x.1
    exact List.singleton_inj.1 roots

end Program

/-- Signatures can stand in front of a program instead of in a file of their own: what is checked in
the environment of the file is checked in the empty environment, only further down. -/
theorem check_of_signatures_above {s e : String} {base : Environment} {p : Program}
    (hs : Environment.parse s = .ok base) (he : Program.parse e = .ok p)
    (disjoint : ∀ x ∈ p.signatures, base.get? x.1 = none) :
    ∃ q, Program.parse (s ++ "\n" ++ e) = .ok q ∧
      q.check .empty = (p.check base).under (underText s) := by
  obtain ⟨file, accepted, distinct, rfl⟩ := Environment.parse_spec hs
  obtain ⟨items, accepted', built⟩ := Program.parse_eq_ok_iff.1 he
  obtain ⟨program, signatures⟩ := read_program_of_read_signatures accepted
  obtain ⟨stop, joined⟩ := read_append program accepted'
  have lists := Program.Lists.of_build built
  have signatures' := isSignature_lastEndingAt stop signatures
  have names := filterMap_lastEndingAt stop Item.signatureName?_endingAt file
  have declared := filterMap_lastEndingAt stop Item.declared?_endingAt file
  have fresh : ∀ name ∈ (lastEndingAt stop file).filterMap Item.signatureName?,
      name ∉ (items.map (·.under (underText s))).filterMap Item.signatureName? := by
    intro name inFile inProgram
    rw [names, ← Item.map_fst_declared?] at inFile
    rw [Item.filterMap_signatureName?_under, ← Item.map_fst_signatures,
      ← lists.signatures] at inProgram
    obtain ⟨x, mem, rfl⟩ := List.mem_map.1 inProgram
    exact SortedMap.get?_ofList_eq_none_iff.1 (disjoint x mem) inFile
  have buildable := ((Buildable.of_build built).under (underText s)).signatures_append signatures'
    (names ▸ distinct) fresh
  obtain ⟨q, built'⟩ : ∃ q, build _ (spanOf (s ++ "\n" ++ e)) = .ok q :=
    exists_build_iff.2 buildable
  have lists' := Program.Lists.of_build built'
  refine ⟨q, Program.parse_eq_ok_iff.2 ⟨_, joined, built'⟩, ?_⟩
  refine (lists.under signatures' lists').check_eq ?_
  rw [Program.environment, Program.environment, lists'.declared_eq, lists.declared_eq,
    List.filterMap_append, declared, Item.filterMap_declared?_under, SortedMap.ofList_append,
    SortedMap.empty_merge]

/-- Two tasks of a file that ends with a comment do not compose. -/
theorem check_of_signatures_above_of_comment :
    let s := "a :: A -> B\nb :: C -> D # c"
    let e := "c :: A -> B\nfunctor f = b o a\nf × (b o c)"
    ∃ base p q, Environment.parse s = .ok base ∧ Program.parse e = .ok p ∧
      Program.parse (s ++ "\n" ++ e) = .ok q ∧
      q.check .empty = (p.check base).under (underText s) := by
  intro s e
  have hs := Except.eq_ok_get (x := Environment.parse s) (by decide)
  have he := Except.eq_ok_get (x := Program.parse e) (by decide)
  obtain ⟨q, hq, same⟩ := check_of_signatures_above hs he (by decide +kernel)
  exact ⟨_, _, q, hs, he, hq, same⟩

end Taskflow
