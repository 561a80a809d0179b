import Taskflow.Proofs.Program.Structure

/-!
# Writing functors out

`Program.Expands` takes an expression to the one without functors that it is a shorthand for: each
literal that names a functor makes room for what the functor stands for, and so on in what takes its
place.  There is exactly one such expression wherever following functor names ends.
-/

namespace Taskflow

/-- A node with every literal that names a functor replaced by what the functor stands for, and so
on in what takes its place. -/
inductive Program.Expands (p : Program) : Node → Node → Prop
  | task {id name span} :
    p.functorBody name = none → Expands p (.literal id name span) (.literal id name span)
  | named {id name span body expanded} :
    p.functorBody name = some body → Expands p body expanded →
      Expands p (.literal id name span) expanded
  | composition {id outer inner span outer' inner'} :
    Expands p outer outer' → Expands p inner inner' →
      Expands p (.composition id outer inner span) (.composition id outer' inner' span)
  | product {id left right span left' right'} :
    Expands p left left' → Expands p right right' →
      Expands p (.product id left right span) (.product id left' right' span)
  | functor {id name body span body'} :
    Expands p body body' → Expands p (.functor id name body span) (.functor id name body' span)

namespace Program

variable {p : Program}

/-- Names can be written out wherever following them ends. -/
theorem Grounded.expands {n : Node} (h : p.Grounded n) : ∃ n', p.Expands n n' := by
  induction h with
  | task none => exact ⟨_, .task none⟩
  | named found _ ih =>
    obtain ⟨body, expands⟩ := ih
    exact ⟨body, .named found expands⟩
  | composition _ _ ihOuter ihInner =>
    obtain ⟨outer, expandsOuter⟩ := ihOuter
    obtain ⟨inner, expandsInner⟩ := ihInner
    exact ⟨_, .composition expandsOuter expandsInner⟩
  | product _ _ ihLeft ihRight =>
    obtain ⟨left, expandsLeft⟩ := ihLeft
    obtain ⟨right, expandsRight⟩ := ihRight
    exact ⟨_, .product expandsLeft expandsRight⟩
  | functor _ ih =>
    obtain ⟨body, expands⟩ := ih
    exact ⟨_, .functor expands⟩

/-- There is one way to write a node out. -/
theorem Expands.unique {n a b : Node} (ha : p.Expands n a) (hb : p.Expands n b) : a = b := by
  induction ha generalizing b with
  | task none =>
    cases hb with
    | task => rfl
    | named some _ => cases none.symm.trans some
  | named some _ ih =>
    cases hb with
    | task none => cases none.symm.trans some
    | named some' expands =>
      obtain rfl := Option.some.inj (some.symm.trans some')
      exact ih expands
  | composition _ _ ihOuter ihInner =>
    cases hb with
    | composition outer inner => rw [ihOuter outer, ihInner inner]
  | product _ _ ihLeft ihRight =>
    cases hb with
    | product left right => rw [ihLeft left, ihRight right]
  | functor _ ih =>
    cases hb with
    | functor body => rw [ih body]

/-- No functor name is left in what is written out. -/
theorem Expands.functorBody_eq_none {n n' : Node} (h : p.Expands n n') :
    ∀ name ∈ n'.references, p.functorBody name = none := by
  induction h with
  | task none =>
    intro other mem
    rw [Node.references, List.mem_singleton] at mem
    rwa [mem]
  | named _ _ ih => exact ih
  | composition _ _ ihOuter ihInner =>
    intro other mem
    rcases List.mem_append.1 mem with mem | mem
    · exact ihOuter other mem
    · exact ihInner other mem
  | product _ _ ihLeft ihRight =>
    intro other mem
    rcases List.mem_append.1 mem with mem | mem
    · exact ihLeft other mem
    · exact ihRight other mem
  | functor _ ih => exact ih

end Program

end Taskflow
