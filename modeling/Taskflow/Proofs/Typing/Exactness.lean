import Mathlib.Data.List.Sort
import Taskflow.Proofs.Grammar.Programs
import Taskflow.Proofs.Typing.Inference
import Taskflow.Typing.Check

/-!
# Checking is exact

The report of a check says of a parsed program what the typing rules say: it holds the types of the
nodes that have one, one error for each node at fault, in the order of the text, and it is a success
if and only if there is nothing to complain about (`exact_checkWith_of_parse`).

No fault hides another one.  If no node is at fault then every node has a type, by induction along
the dependencies of the node (`WellFormed.typed`).
-/

namespace Taskflow

variable {p : Program} {env : Environment}

/-! ## Nodes without fault -/

namespace Program

/-- If no node is at fault then every node has a type. -/
theorem WellFormed.typed (wf : p.WellFormed) (sound : ∀ n ∈ p.nodes, ¬ p.Faulty env n) {n : Node}
    (hn : n ∈ p.nodes) : p.Typed env n := by
  refine (wf.grounded hn).of_dependencies (P := fun n ↦ n ∈ p.nodes → p.Typed env n) ?_ hn
  intro n ih hn
  refine not_not.1 fun untyped ↦ sound n hn ⟨fun m hm ↦ ?_, untyped⟩
  exact ih m hm (wf.mem_nodes_of_mem_dependencies hn hm)

end Program

/-! ## The errors of a program -/

/-- If every node at fault has one report, and no other node has one, then every report says what is
to be said of a node at fault. -/
theorem exists_reports {nodes : List Node} {errors : List TypeError}
    (reported : ∀ n ∈ nodes, p.Faulty env n →
      ∃ e, errors.filter (·.node = n.id) = [e] ∧ p.Reports env n e)
    (justified : ∀ e ∈ errors, ∃ n ∈ nodes, p.Faulty env n ∧ e.node = n.id) {e : TypeError}
    (he : e ∈ errors) : ∃ n ∈ nodes, p.Faulty env n ∧ p.Reports env n e := by
  obtain ⟨n, hn, faulty, named⟩ := justified e he
  obtain ⟨e', only, report⟩ := reported n hn faulty
  have mem : e ∈ errors.filter (·.node = n.id) := List.mem_filter.2 ⟨he, by simp [named]⟩
  rw [only, List.mem_singleton] at mem
  subst mem
  exact ⟨n, hn, faulty, report⟩

namespace Findings.Covers

variable {f : Findings} {visited : List Node}

/-- Every error reports a node at fault. -/
theorem reports (covers : f.Covers p env visited) {e : TypeError} (he : e ∈ f.errors) :
    ∃ n ∈ visited, p.Faulty env n ∧ p.Reports env n e :=
  exists_reports covers.reported covers.justified he

/-- No node is reported twice. -/
theorem nodup_node (covers : f.Covers p env visited) : (f.errors.map TypeError.node).Nodup := by
  refine List.nodup_iff_count_le_one.2 fun i ↦ ?_
  by_cases mem : i ∈ f.errors.map TypeError.node
  · obtain ⟨e, he, rfl⟩ := List.mem_map.1 mem
    obtain ⟨n, hn, faulty, named⟩ := covers.justified e he
    obtain ⟨e', only, -⟩ := covers.reported n hn faulty
    have count := congrArg List.length only
    rw [← List.countP_eq_length_filter] at count
    rw [List.count, List.countP_map, named]
    refine Nat.le_of_eq (Eq.trans (List.countP_congr fun e _ ↦ ?_) count)
    simp
  · simp [List.count_eq_zero.2 mem]

/-- No stretch of text is reported twice. -/
theorem nodup_extent (wf : p.WellFormed) (covers : f.Covers p env p.nodes) :
    (f.errors.map fun e ↦ (e.span.start.offset, e.span.stop.offset)).Nodup := by
  refine List.Nodup.map_on (fun e he e' he' same ↦ ?_) (List.Nodup.of_map _ covers.nodup_node)
  obtain ⟨n, hn, -, report⟩ := covers.reports he
  obtain ⟨n', hn', -, report'⟩ := covers.reports he'
  have extent : n.extent = n'.extent := by
    rw [Node.extent, Node.extent, ← report.span_eq, ← report'.span_eq]
    exact same
  have expr : n ∈ p.nodes.filter (!·.isDeclaration) :=
    List.mem_filter.2 ⟨hn, by simp [report.isDeclaration_eq]⟩
  have expr' : n' ∈ p.nodes.filter (!·.isDeclaration) :=
    List.mem_filter.2 ⟨hn', by simp [report'.isDeclaration_eq]⟩
  obtain rfl := List.inj_on_of_nodup_map wf.extents expr expr' extent
  have same : e.node = e'.node := report.node_eq.trans report'.node_eq.symm
  exact List.inj_on_of_nodup_map covers.nodup_node he he' same

/-- The ids of a program tell its nodes apart, so each is recorded with its own type. -/
theorem get?_id (wf : p.WellFormed) (covers : f.Covers p env p.nodes) {n : Node} (hn : n ∈ p.nodes)
    (t : Ty) : f.nodeTypes.get? n.id = some t ↔ p.HasType env n t := by
  rw [covers.types]
  constructor
  · rintro ⟨m, hm, same, typed⟩
    rwa [← wf.eq_of_id_eq hm hn same]
  · exact fun typed ↦ ⟨n, hn, rfl, typed⟩

/-- There is nothing to report if and only if every node has a type. -/
theorem errors_eq_nil_iff (wf : p.WellFormed) (covers : f.Covers p env p.nodes) :
    f.errors = [] ↔ ∀ n ∈ p.nodes, p.Typed env n := by
  constructor
  · intro none n hn
    refine wf.typed (fun m hm faulty ↦ ?_) hn
    obtain ⟨e, only, -⟩ := covers.reported m hm faulty
    simp [none] at only
  · refine fun typed ↦ List.eq_nil_iff_forall_not_mem.2 fun e he ↦ ?_
    obtain ⟨n, hn, faulty, -⟩ := covers.justified e he
    exact faulty.2 (typed n hn)

end Findings.Covers

/-! ## Reports -/

/-- What a report has to say of a program that is checked in the environment `env`. -/
structure Report.Exact (p : Program) (env : Environment) (r : Report) : Prop where
  /-- a node is recorded with the type that it has -/
  types : ∀ n ∈ p.nodes, ∀ t, r.nodeTypes.get? n.id = some t ↔ p.HasType env n t
  /-- nothing else is recorded -/
  keys : ∀ i t, r.nodeTypes.get? i = some t → ∃ n ∈ p.nodes, n.id = i
  /-- a node at fault has one error, and it says what is to be said -/
  reported : ∀ n ∈ p.nodes, p.Faulty env n →
    ∃ e, r.errors.filter (·.node = n.id) = [e] ∧ p.Reports env n e
  /-- no other node has one -/
  justified : ∀ e ∈ r.errors, ∃ n ∈ p.nodes, p.Faulty env n ∧ e.node = n.id
  /-- errors are in the order of the text -/
  sorted : r.errors.Pairwise fun a b ↦ a.span.start.offset < b.span.start.offset ∨
    a.span.start.offset = b.span.start.offset ∧ a.span.stop.offset < b.span.stop.offset
  success : r.success = true ↔ r.errors = []
  complete : r.errors = [] ↔ ∀ n ∈ p.nodes, (r.nodeTypes.get? n.id).isSome

/-- A program passes if every node has a type. -/
theorem Report.Exact.success_iff {r : Report} (exact : r.Exact p env) :
    r.success = true ↔ ∀ n ∈ p.nodes, p.Typed env n := by
  rw [exact.success, exact.complete]
  refine forall₂_congr fun n hn ↦ ?_
  rw [Option.isSome_iff_exists]
  exact exists_congr fun t ↦ exact.types n hn t

/-- Sorting in source order is strict if no two errors have the same place. -/
theorem pairwise_mergeSort_notAfter {errors : List TypeError}
    (distinct : (errors.map fun e ↦ (e.span.start.offset, e.span.stop.offset)).Nodup) :
    (errors.mergeSort TypeError.notAfter).Pairwise fun a b ↦
      a.span.start.offset < b.span.start.offset ∨
        a.span.start.offset = b.span.start.offset ∧ a.span.stop.offset < b.span.stop.offset := by
  have sorted : (errors.mergeSort TypeError.notAfter).Pairwise fun a b ↦ a.notAfter b := by
    refine List.pairwise_mergeSort (fun a b c hab hbc ↦ ?_) (fun a b ↦ ?_) errors
    · simp only [TypeError.notAfter, Span.notAfter, Bool.or_eq_true, Bool.and_eq_true,
        decide_eq_true_eq, beq_iff_eq] at hab hbc ⊢
      omega
    · simp only [TypeError.notAfter, Span.notAfter, Bool.or_eq_true, Bool.and_eq_true,
        decide_eq_true_eq, beq_iff_eq]
      omega
  have apart : (errors.mergeSort TypeError.notAfter).Pairwise fun a b ↦
      (a.span.start.offset, a.span.stop.offset) ≠ (b.span.start.offset, b.span.stop.offset) :=
    List.pairwise_map.1 (((List.mergeSort_perm errors _).map _).nodup_iff.2 distinct)
  refine (sorted.and apart).imp fun {a b} ⟨before, differ⟩ ↦ ?_
  simp only [TypeError.notAfter, Span.notAfter, Bool.or_eq_true, Bool.and_eq_true,
    decide_eq_true_eq, beq_iff_eq] at before
  simp only [ne_eq, Prod.mk.injEq, not_and] at differ
  omega

/-- Lists that are strictly in source order are known by what is in them. -/
theorem eq_of_sourceOrder {α : Type} (span : α → Span) {l l' : List α}
    (sorted : l.Pairwise fun a b ↦ (span a).start.offset < (span b).start.offset ∨
      (span a).start.offset = (span b).start.offset ∧ (span a).stop.offset < (span b).stop.offset)
    (sorted' : l'.Pairwise fun a b ↦ (span a).start.offset < (span b).start.offset ∨
      (span a).start.offset = (span b).start.offset ∧ (span a).stop.offset < (span b).stop.offset)
    (same : ∀ a, a ∈ l ↔ a ∈ l') : l = l' := by
  let before (a b : α) : Prop := (span a).start.offset < (span b).start.offset ∨
    (span a).start.offset = (span b).start.offset ∧ (span a).stop.offset < (span b).stop.offset
  have irreflexive : Std.Irrefl before := ⟨fun a ↦ by simp [before]⟩
  have antisymmetric : Std.Antisymm before :=
    ⟨fun a b ab ba ↦ by
      dsimp only [before] at ab ba
      omega⟩
  exact List.Pairwise.eq_of_mem_iff (r := before) sorted sorted' same

/-- The report of a well-formed program is exact. -/
theorem Program.WellFormed.exact_checkWith (wf : p.WellFormed) (rules : List LintRule)
    (base : Environment) : (p.checkWith rules base).Exact p (p.environment base) := by
  obtain ⟨root, covers, -⟩ := p.infer_covers wf (p.environment base)
  have order := List.mergeSort_perm (p.infer (p.environment base)).2.errors TypeError.notAfter
  have none : (p.checkWith rules base).errors = [] ↔
      (p.infer (p.environment base)).2.errors = [] := by
    rw [← List.length_eq_zero_iff, ← List.length_eq_zero_iff]
    exact iff_of_eq (congrArg (· = 0) order.length_eq)
  have complete := none.trans (covers.errors_eq_nil_iff wf)
  exact {
    types := fun n hn ↦ covers.get?_id wf hn
    keys := fun i t found ↦ by
      obtain ⟨n, hn, same, -⟩ := (covers.types i t).1 found
      exact ⟨n, hn, same⟩
    reported := fun n hn faulty ↦ by
      obtain ⟨e, only, report⟩ := covers.reported n hn faulty
      exact ⟨e, List.perm_singleton.1 (only ▸ order.filter _), report⟩
    justified := fun e he ↦ covers.justified e (order.mem_iff.1 he)
    sorted := pairwise_mergeSort_notAfter (covers.nodup_extent wf)
    success := by
      rw [complete, ← covers.errors_eq_nil_iff wf, Program.checkWith, Bool.and_eq_true,
        List.isEmpty_iff, and_iff_left_iff_imp]
      intro empty
      obtain ⟨t, typed⟩ := (covers.errors_eq_nil_iff wf).1 empty p.root p.root_mem_nodes
      exact Option.isSome_iff_exists.2 ⟨t, (root t).2 typed⟩
    complete := by
      rw [complete]
      refine forall₂_congr fun n hn ↦ ?_
      rw [Option.isSome_iff_exists]
      exact exists_congr fun t ↦ (covers.get?_id wf hn t).symm }

/-- What an error says apart from types. -/
def TypeError.about (e : TypeError) : TypeErrorKind × NodeId × String × Span :=
  (e.kind, e.node, e.subject, e.span)

/-- What is said of a node apart from types depends on the node alone. -/
theorem Program.Reports.about_eq {q : Program} {env' : Environment} {n : Node} {e e' : TypeError}
    (h : p.Reports env n e) (h' : q.Reports env' n e') : e.about = e'.about := by
  cases h <;> cases h' <;> rfl

namespace Report.Exact

variable {q : Program} {env' : Environment} {r r' : Report}

/-- Every error reports a node at fault. -/
theorem reports (exact : r.Exact p env) {e : TypeError} (he : e ∈ r.errors) :
    ∃ n ∈ p.nodes, p.Faulty env n ∧ p.Reports env n e :=
  exists_reports exact.reported exact.justified he

/-- The errors are what there is to say of the nodes at fault. -/
theorem mem_errors_iff (exact : r.Exact p env) {e : TypeError} :
    e ∈ r.errors ↔ ∃ n ∈ p.nodes, p.Faulty env n ∧ p.Reports env n e := by
  refine ⟨exact.reports, ?_⟩
  rintro ⟨n, hn, faulty, report⟩
  obtain ⟨e', only, report'⟩ := exact.reported n hn faulty
  obtain rfl := report.unique report'
  have mem : e ∈ r.errors.filter (·.node = n.id) := only ▸ List.mem_singleton.2 rfl
  exact (List.mem_filter.1 mem).1

/-- What is said of a node at fault is said in every report of a program where it is at fault. -/
theorem map_about_subset (exact : r.Exact p env) (exact' : r'.Exact q env')
    (faulty : ∀ n ∈ p.nodes, p.Faulty env n → n ∈ q.nodes ∧ q.Faulty env' n) :
    r.errors.map TypeError.about ⊆ r'.errors.map TypeError.about := by
  intro a ha
  obtain ⟨e, he, rfl⟩ := List.mem_map.1 ha
  obtain ⟨n, hn, fault, report⟩ := exact.reports he
  obtain ⟨hn, fault⟩ := faulty n hn fault
  obtain ⟨e', only, report'⟩ := exact'.reported n hn fault
  have mem : e' ∈ r'.errors.filter (·.node = n.id) := only ▸ List.mem_singleton.2 rfl
  rw [report.about_eq report']
  exact List.mem_map_of_mem (List.mem_filter.1 mem).1

/-- Reports of programs with the same faults have errors about the same, in the same order. -/
theorem map_about_eq (exact : r.Exact p env) (exact' : r'.Exact q env')
    (nodes : q.nodes = p.nodes) (faulty : ∀ n ∈ p.nodes, q.Faulty env' n ↔ p.Faulty env n) :
    r'.errors.map TypeError.about = r.errors.map TypeError.about := by
  have forth := exact'.map_about_subset exact fun n hn fault ↦ by
    rw [nodes] at hn
    exact ⟨hn, (faulty n hn).1 fault⟩
  have back := exact.map_about_subset exact' fun n hn fault ↦ by
    rw [nodes]
    exact ⟨hn, (faulty n hn).2 fault⟩
  exact eq_of_sourceOrder (·.2.2.2) (List.pairwise_map.2 exact'.sorted)
    (List.pairwise_map.2 exact.sorted) fun a ↦ ⟨@forth a, @back a⟩

end Report.Exact

/-- The type of a program is that of its root, if all is well. -/
theorem Program.WellFormed.programType_checkWith_iff (wf : p.WellFormed) (rules : List LintRule)
    (base : Environment) (t : Ty) :
    (p.checkWith rules base).programType = some t ↔
      (p.checkWith rules base).success = true ∧ p.HasType (p.environment base) p.root t := by
  have type : (p.checkWith rules base).programType =
      if (p.checkWith rules base).success then (p.infer (p.environment base)).1 else none := rfl
  rw [type, Option.ite_none_right_eq_some, (p.infer_covers wf (p.environment base)).1]

/-- The environment of a report has the types of functors, if all is well. -/
theorem Program.WellFormed.environment_checkWith_iff (wf : p.WellFormed) (rules : List LintRule)
    (base : Environment) {name : String} {body : Node} (stands : p.functorBody name = some body)
    (t : Ty) :
    (p.checkWith rules base).environment.bind (·.get? name) = some t ↔
      (p.checkWith rules base).success = true ∧ p.HasType (p.environment base) body t := by
  have known : (p.checkWith rules base).environment =
      if (p.checkWith rules base).success then
        some ((p.environment base).merge (p.infer (p.environment base)).2.functorTypes)
      else none := rfl
  cases success : (p.checkWith rules base).success with
  | false => simp [known, success]
  | true =>
    rw [known, if_pos success, Option.bind_some, SortedMap.get?_merge]
    -- the body has a type, as every node has
    obtain ⟨u, typed⟩ :=
      (wf.exact_checkWith rules base).success_iff.1 success body (wf.functorBody_mem_nodes stands)
    have found := ((p.infer_covers wf (p.environment base)).2.2 name u).2
      ⟨wf.isSome_functorBody_iff.1 (by simp [stands]), body, stands, typed⟩
    rw [found, Option.some_or, Option.some.injEq]
    refine ⟨fun same ↦ ⟨rfl, same ▸ typed⟩, fun h ↦ typed.unique h.2⟩

/-- On success the type of the program is that of its root. -/
theorem Program.WellFormed.programType_checkWith (wf : p.WellFormed) {rules : List LintRule}
    {base : Environment} (success : (p.checkWith rules base).success = true) (t : Ty) :
    (p.checkWith rules base).programType = some t ↔ p.HasType (p.environment base) p.root t := by
  rw [wf.programType_checkWith_iff, and_iff_right success]

/-- The report on a parsed program is exact. -/
theorem exact_checkWith_of_parse {text : String} (parsed : Program.parse text = .ok p)
    (rules : List LintRule) (base : Environment) :
    (p.checkWith rules base).Exact p (p.environment base) :=
  (Program.wellFormed_of_parse parsed).exact_checkWith rules base

/-- Exactness for a program with faults in a functor and in its root. -/
theorem exact_checkWith_of_two_faults :
    ∃ p, Program.parse "a :: X -> Y\nf = b ∘ a\nf × (a ∘ a)" = .ok p ∧
      (p.checkWith LintRule.all .empty).success = false ∧
      (p.checkWith LintRule.all .empty).Exact p (p.environment .empty) := by
  have parsed := Except.eq_ok_get
    (x := Program.parse "a :: X -> Y\nf = b ∘ a\nf × (a ∘ a)") (by decide)
  exact ⟨_, parsed, by decide, exact_checkWith_of_parse parsed LintRule.all .empty⟩

end Taskflow
