import Taskflow.Proofs.Program.Structure
import Taskflow.Typing.Check

/-!
# Warnings about nodes that are the same

Lint rules look at names and references, and take from a node only where it stands.  So a program
whose nodes are replaced by others with the same references has the same warnings, wherever the
others stand (`check_map`).
-/

namespace Taskflow.LintRule

variable {p q : Program} {g : Node → Node} {move : Warning → Warning}
  (functors : q.functors = p.functors.map fun f ↦ (f.1, g f.2)) (root : q.root = g p.root)
  (references : ∀ n, (g n).references = n.references)
  (declares : ∀ n, (g n).isDeclaration = n.isDeclaration)
include functors root references declares

theorem referenced_map : referenced q = referenced p := by
  have bodies (p : Program) : referenced p = p.root.references ++
      p.functors.flatMap fun f ↦ if f.2.isDeclaration then f.2.references else [] := by
    refine congrArg _ (List.flatMap_congr fun f _ ↦ ?_)
    cases f.2 <;> rfl
  simp only [bodies, functors, root, List.flatMap_map, references, declares]

/-- The warnings are the same, where the nodes are now. -/
theorem check_map
    (moves : ∀ n message rule, move ⟨n.span, message, rule⟩ = ⟨(g n).span, message, rule⟩)
    (env : Environment) : (all.flatMap fun rule ↦ rule.check q env) =
      (all.flatMap fun rule ↦ rule.check p env).map move := by
  have unused : unusedFunctor.check q env = (unusedFunctor.check p env).map move := by
    have same := referenced_map functors root references declares
    simp only [unusedFunctor, same, functors, List.filterMap_map, List.map_filterMap]
    refine List.filterMap_congr fun f _ ↦ ?_
    simp only [Function.comp_apply]
    split
    · rfl
    · rw [Option.map_some, moves]
  have shadowed : shadowedTask.check q env = (shadowedTask.check p env).map move := by
    simp only [shadowedTask, functors, List.filterMap_map, List.map_filterMap]
    refine List.filterMap_congr fun f _ ↦ ?_
    simp [moves, Function.comp_def]
  simp only [all, List.flatMap_cons, List.flatMap_nil, List.map_append, unused, shadowed,
    List.map_nil]

end Taskflow.LintRule
