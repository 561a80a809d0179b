/-!
# Tables

Things by name in the order in which the names appeared.
-/

namespace Taskflow

variable {α : Type}

/-- Things by name, in the order in which they were declared. -/
abbrev Table (α : Type) := List (String × α)

/-- What is found behind one more entry. -/
theorem lookup_cons_eq_ite {κ : Type} [DecidableEq κ] (j k : κ) (v : α) (l : List (κ × α)) :
    ((k, v) :: l).lookup j = if j = k then some v else l.lookup j := by
  rw [List.lookup_cons]
  by_cases h : j = k
  · simp [h]
  · have : (j == k) = false := by simpa using h
    simp [h, this]

/-- What is found is an entry. -/
theorem mem_of_lookup_eq_some {κ : Type} [DecidableEq κ] {k : κ} {v : α} {l : List (κ × α)}
    (h : l.lookup k = some v) : (k, v) ∈ l := by
  obtain ⟨before, after, rfl, -⟩ := List.lookup_eq_some_iff.1 h
  exact List.mem_append_right _ List.mem_cons_self

/-- Nothing is found under a name that no entry has. -/
theorem lookup_eq_none_iff_notMem {κ : Type} [DecidableEq κ] {j : κ} {l : List (κ × α)} :
    l.lookup j = none ↔ j ∉ l.map (·.1) := by
  rw [List.lookup_eq_none_iff, List.mem_map]
  constructor
  · rintro h ⟨e, he, rfl⟩
    simpa using h e he
  · intro h e he
    simpa using fun same : j = e.1 ↦ h ⟨e, he, same.symm⟩

/-- What is found in a table whose values are mapped. -/
theorem lookup_map_snd {β κ : Type} [DecidableEq κ] (f : α → β) (k : κ) (l : List (κ × α)) :
    (l.map fun e ↦ (e.1, f e.2)).lookup k = (l.lookup k).map f := by
  induction l with
  | nil => rfl
  | cons e rest ih =>
    rw [List.map_cons, lookup_cons_eq_ite, lookup_cons_eq_ite, ih]
    split <;> rfl

namespace Table

/-- Put something under a name: in the place of what has that name, or at the end. -/
def put (name : String) (a : α) : Table α → Table α
  | [] => [(name, a)]
  | (k, b) :: rest => if k = name then (k, a) :: rest else (k, b) :: put name a rest

/-- Under a new name something goes to the end. -/
theorem put_eq_append {name : String} {a : α} {t : Table α} (fresh : name ∉ t.map (·.1)) :
    t.put name a = t ++ [(name, a)] := by
  induction t with
  | nil => rfl
  | cons e rest ih =>
    rw [List.map_cons, List.mem_cons, not_or] at fresh
    rw [put, if_neg (Ne.symm fresh.1), ih fresh.2]
    rfl

end Table

end Taskflow
