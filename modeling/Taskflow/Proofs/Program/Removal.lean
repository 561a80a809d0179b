import Mathlib.Data.List.Flatten
import Taskflow.Proofs.Program.Structure

/-!
# Programs without one of their functors

Taking a functor out of a well-formed program leaves a well-formed program (`WellFormed.without`):
its nodes are the others, told apart by their ids from those that are gone, and every other name
stands for what it stood for.
-/

namespace Taskflow

namespace Program

/-- A program without the functor of that name. -/
def without (p : Program) (name : String) : Program :=
  { p with functors := p.functors.filter (·.1 ≠ name) }

variable {p : Program} {name : String}

theorem sublist_nodes_without (p : Program) (name : String) :
    (p.without name).nodes.Sublist p.nodes :=
  (List.filter_sublist.flatMap _).append_right _

namespace WellFormed

variable (wf : p.WellFormed)
include wf

/-- What is left of a well-formed program is well-formed. -/
theorem without (name : String) : (p.without name).WellFormed where
  entry f hf := wf.entry f (List.mem_of_mem_filter hf)
  root := wf.root
  distinct := wf.distinct.sublist (List.filter_sublist.map _)
  backward := wf.backward.sublist List.filter_sublist
  irreflexive f hf := wf.irreflexive f (List.mem_of_mem_filter hf)
  ids := wf.ids.sublist ((p.sublist_nodes_without name).map _)
  extents := wf.extents.sublist (((p.sublist_nodes_without name).filter _).map _)

/-- Every other name stands for what it stood for. -/
theorem functorBody_without {other : String} (differ : other ≠ name) :
    (p.without name).functorBody other = p.functorBody other := by
  refine Option.ext fun body ↦ ?_
  rw [(wf.without name).functorBody_eq_some_iff, wf.functorBody_eq_some_iff]
  refine exists₂_congr fun id span ↦ ?_
  simp [Program.without, differ]

/-- The nodes of a program are those of a functor and those that are left without it. -/
theorem nodes_perm_without {node : Node} (declared : (name, node) ∈ p.functors) :
    p.nodes.Perm (node.all ++ (p.without name).nodes) := by
  obtain ⟨before, after, split⟩ := List.append_of_mem declared
  have distinct := wf.distinct
  rw [split, List.map_append, List.map_cons, List.nodup_append'] at distinct
  obtain ⟨-, distinct, apart⟩ := distinct
  have left : (p.without name).functors = before ++ after := by
    have keep {rest : Table Node} (absent : name ∉ rest.map (·.1)) :
        rest.filter (·.1 ≠ name) = rest := by
      refine List.filter_eq_self.2 fun f hf ↦ decide_eq_true ?_
      rintro rfl
      exact absent (List.mem_map_of_mem hf)
    have absent : name ∉ before.map (·.1) := fun mem ↦ apart mem List.mem_cons_self
    have absent' : name ∉ after.map (·.1) := (List.nodup_cons.1 distinct).1
    rw [Program.without, split, List.filter_append, keep absent, List.filter_cons_of_neg (by simp),
      keep absent']
  rw [nodes, nodes, left, split, List.flatMap_append, List.flatMap_append, List.flatMap_cons]
  simp only [← List.append_assoc]
  exact (List.perm_append_comm.append_right _).append_right _

/-- A node of a program is left without a functor if and only if its id is not one of those below
the functor. -/
theorem mem_nodes_without_iff {node n : Node} (declared : (name, node) ∈ p.functors)
    (hn : n ∈ p.nodes) : n ∈ (p.without name).nodes ↔ n.id ∉ node.all.map Node.id := by
  have perm := wf.nodes_perm_without declared
  have ids := (perm.map Node.id).nodup_iff.1 wf.ids
  rw [List.map_append, List.nodup_append'] at ids
  constructor
  · exact fun left below ↦ ids.2.2 below (List.mem_map_of_mem left)
  · intro elsewhere
    rcases List.mem_append.1 (perm.mem_iff.1 hn) with below | left
    · exact (elsewhere (List.mem_map_of_mem below)).elim
    · exact left

end WellFormed

end Program

end Taskflow
