import Taskflow.Proofs.Grammar.Building
import Taskflow.Proofs.Grammar.Unambiguous
import Taskflow.Proofs.SortedMap
import Taskflow.Proofs.Typing.Bare

/-!
# Declarations in another order

Texts of the same items in different orders make programs that, up to ids and places, differ in the
order of their tables alone (`Program.Reordered`, `reordered_of_parse`).  A name is the key of one
entry of a table, so it stands for the same in both programs.
-/

namespace Taskflow

open Grammar

/-- Whether two programs have the same declarations, in any order, and the same root, up to ids and
places. -/
structure Program.Reordered (p q : Program) : Prop where
  signatures : p.bare.signatures.Perm q.bare.signatures
  functors : p.bare.functors.Perm q.bare.functors
  root : p.root.bare = q.root.bare

@[simp] theorem Node.all_bare (n : Node) : n.bare.all = n.all.map bare := by
  induction n <;> simp_all [bare, all]

namespace Program

/-- The nodes of a program without ids and places are its nodes without theirs. -/
theorem nodes_bare (p : Program) : p.bare.nodes = p.nodes.map Node.bare := by
  simp [nodes, bare, List.map_flatMap, List.flatMap_map]

/-- What names stand for in a program without ids and places. -/
theorem functorBody_bare (p : Program) (name : String) :
    p.bare.functorBody name = (p.functorBody name).map Node.bare :=
  @functorBody_of_bare p p.bare p.bare.root rfl name

/-- The table of a program without ids and places has the same names. -/
theorem map_fst_functors_bare (p : Program) :
    p.bare.functors.map (·.1) = p.functors.map (·.1) := by
  simp [bare]

namespace Reordered

variable {p q : Program} (same : p.Reordered q)
include same

theorem nodes_perm : (p.nodes.map Node.bare).Perm (q.nodes.map Node.bare) := by
  have root : p.bare.root.all = q.bare.root.all := congrArg Node.all same.root
  rw [← nodes_bare, ← nodes_bare, nodes, nodes, root]
  exact (same.functors.flatMap_right _).append_right _

/-- Names stand for the same. -/
theorem bodies (wf : p.WellFormed) (name : String) :
    p.bare.functorBody name = (q.functorBody name).map Node.bare := by
  have distinct := wf.distinct
  rw [← map_fst_functors_bare] at distinct
  rw [← functorBody_bare, functorBody, functorBody, lookup_eq_of_perm same.functors distinct]

/-- Tasks have the same types. -/
theorem environment_eq (distinct : (p.signatures.map (·.2.name)).Nodup) (base : Environment) :
    q.environment base = p.environment base := by
  have declared : p.bare.declared = q.bare.declared := by
    refine SortedMap.ofList_eq_of_perm (same.signatures.map _) ?_
    simpa [bare, Signature.bare, Function.comp_def] using distinct
  have bare (p : Program) : p.bare.declared = p.declared := by
    rw [Program.declared, Program.declared, Program.bare, List.map_map]
    rfl
  rw [environment, environment, ← bare p, ← bare q, declared]

end Reordered

/-- Programs that consist of the same clauses in different orders. -/
theorem Holds.reordered {p q : Program} {cs cs' : List Clause} (hp : p.Holds cs) (hq : q.Holds cs')
    (perm : cs.Perm cs') : p.Reordered q where
  signatures := by
    rw [hp.signatures, hq.signatures]
    exact perm.filterMap _
  functors := by
    rw [hp.functors, hq.functors]
    exact perm.filterMap _
  root := by
    have root := perm.filterMap Clause.root?
    rw [← hp.root, ← hq.root] at root
    exact List.singleton_perm_singleton.1 root

/-- A parsed program has one signature for each of its tasks. -/
theorem nodup_names_of_parse {text : String} {p : Program} (h : Program.parse text = .ok p) :
    (p.signatures.map (·.2.name)).Nodup := by
  obtain ⟨items, -, built⟩ := parse_eq_ok_iff.1 h
  have names : (items.filterMap Item.signature?).map (·.2.name) =
      items.filterMap Item.signatureName? := by
    rw [List.map_filterMap]
    refine List.filterMap_congr fun i _ ↦ ?_
    cases i <;> rfl
  rw [(Lists.of_build built).signatures, names]
  exact (Buildable.of_build built).signatures

end Program

/-- Items that are written in the same way, in any order, say the same. -/
theorem Grammar.clauses_perm {source source' : List Sentence}
    (same : (source.map Sentence.lexemes).Perm (source'.map Sentence.lexemes)) :
    (source.map (·.item.clause)).Perm (source'.map (·.item.clause)) := by
  have factors : Function.FactorsThrough (fun s : Sentence ↦ s.item.clause) Sentence.lexemes := by
    intro x y written
    dsimp only
    rw [← x.clause_unplaced, Sentence.unplaced_eq_of_lexemes_eq written, y.clause_unplaced]
  have : Nonempty Clause := ⟨.signature "" .unit⟩
  obtain ⟨meaning, eq⟩ := (Function.factorsThrough_iff _).1 factors
  rw [eq, ← List.map_map, ← List.map_map]
  exact same.map meaning

/-- Texts of the same items in different orders make programs with the same declarations. -/
theorem Program.reordered_of_parse {text text' : String} {p q : Program}
    (hp : Program.parse text = .ok p) (hq : Program.parse text' = .ok q)
    {source source' : List Sentence} (snug : Snug (lexemesOf source) text.toList)
    (snug' : Snug (lexemesOf source') text'.toList)
    (same : (source.map Sentence.lexemes).Perm (source'.map Sentence.lexemes)) :
    p.Reordered q := by
  obtain ⟨items, accepted, built⟩ := parse_eq_ok_iff.1 hp
  obtain ⟨items', accepted', built'⟩ := parse_eq_ok_iff.1 hq
  obtain ⟨_, reads, clauses⟩ := exists_read_of_snug snug
  obtain ⟨_, reads', clauses'⟩ := exists_read_of_snug snug'
  cases accepted.symm.trans reads
  cases accepted'.symm.trans reads'
  refine (holds_of_build built).1.reordered (holds_of_build built').1 ?_
  rw [clauses, clauses']
  exact clauses_perm same

end Taskflow
