import Taskflow.Table

/-!
# Finite maps sorted by key

Entries are kept strictly increasing in the key, so that two maps with the same entries are the same
map and listing one needs no choice of order.
-/

namespace Taskflow

variable {κ α : Type}

/-- A finite map whose entries are listed in the order of their keys, each key once. -/
structure SortedMap (κ α : Type) [Ord κ] where
  entries : List (κ × α)
  sorted : entries.Pairwise fun a b ↦ compare a.1 b.1 = .lt

namespace SortedMap

instance [Ord κ] [DecidableEq κ] [DecidableEq α] : DecidableEq (SortedMap κ α) := fun a b ↦
  decidable_of_iff (a.entries = b.entries) <| by
    cases a
    cases b
    simp

section Ord

variable [Ord κ]

/-- The map without entries. -/
def empty : SortedMap κ α := ⟨[], .nil⟩

instance : Inhabited (SortedMap κ α) := ⟨empty⟩

@[ext] theorem ext {a b : SortedMap κ α} (h : a.entries = b.entries) : a = b := by
  cases a
  cases b
  simp_all

/-- Put an entry in its place, in front of the first larger key; an equal key is replaced. -/
def insertEntry (k : κ) (v : α) : List (κ × α) → List (κ × α)
  | [] => [(k, v)]
  | e :: rest => match compare k e.1 with
    | .lt => (k, v) :: e :: rest
    | .eq => (k, v) :: rest
    | .gt => e :: insertEntry k v rest

theorem mem_insertEntry {k : κ} {v : α} {e : κ × α} {l : List (κ × α)}
    (h : e ∈ insertEntry k v l) : e = (k, v) ∨ e ∈ l := by
  induction l with
  | nil => simpa [insertEntry] using h
  | cons a rest ih =>
    rw [insertEntry] at h
    split at h
    · simpa using h
    · rcases List.mem_cons.1 h with h | h
      · exact .inl h
      · exact .inr (List.mem_cons_of_mem _ h)
    · rcases List.mem_cons.1 h with h | h
      · exact .inr (h ▸ List.mem_cons_self)
      · exact (ih h).imp_right (List.mem_cons_of_mem _)

theorem pairwise_insertEntry [Std.TransOrd κ] [Std.LawfulEqOrd κ] (k : κ) (v : α)
    {l : List (κ × α)} (h : l.Pairwise fun a b ↦ compare a.1 b.1 = .lt) :
    (insertEntry k v l).Pairwise fun a b ↦ compare a.1 b.1 = .lt := by
  induction l with
  | nil => simp [insertEntry]
  | cons a rest ih =>
    obtain ⟨first, rest_sorted⟩ := List.pairwise_cons.1 h
    rw [insertEntry]
    split
    next c =>
      refine List.pairwise_cons.2 ⟨fun b hb ↦ ?_, h⟩
      rcases List.mem_cons.1 hb with rfl | hb
      · exact c
      · exact Std.TransCmp.lt_trans c (first b hb)
    next c =>
      obtain rfl := Std.LawfulEqOrd.eq_of_compare c
      exact List.pairwise_cons.2 ⟨first, rest_sorted⟩
    next c =>
      refine List.pairwise_cons.2 ⟨fun b hb ↦ ?_, ih rest_sorted⟩
      rcases mem_insertEntry hb with rfl | hb
      · exact Std.OrientedCmp.lt_of_gt c
      · exact first b hb

/-- Add an entry; one with the same key is replaced. -/
def insert [Std.TransOrd κ] [Std.LawfulEqOrd κ] (m : SortedMap κ α) (k : κ) (v : α) :
    SortedMap κ α :=
  ⟨insertEntry k v m.entries, pairwise_insertEntry k v m.sorted⟩

/-- The map that results from inserting entries in turn: of two with one key the later stays. -/
def ofList [Std.TransOrd κ] [Std.LawfulEqOrd κ] (l : List (κ × α)) : SortedMap κ α :=
  l.foldl (fun m e ↦ m.insert e.1 e.2) empty

/-- All entries of both maps; where both have a key the second map decides. -/
def merge [Std.TransOrd κ] [Std.LawfulEqOrd κ] (a b : SortedMap κ α) : SortedMap κ α :=
  b.entries.foldl (fun m e ↦ m.insert e.1 e.2) a

/-- The value under a key. -/
def get? [BEq κ] (m : SortedMap κ α) (k : κ) : Option α := m.entries.lookup k

/-- Whether a key occurs. -/
def contains [BEq κ] (m : SortedMap κ α) (k : κ) : Bool := (m.get? k).isSome

def size (m : SortedMap κ α) : Nat := m.entries.length

def isEmpty (m : SortedMap κ α) : Bool := m.entries.isEmpty

theorem lookup_insertEntry [DecidableEq κ] [Std.LawfulEqOrd κ] (k j : κ) (v : α)
    (l : List (κ × α)) :
    (insertEntry k v l).lookup j = if j = k then some v else l.lookup j := by
  induction l with
  | nil => rw [insertEntry, lookup_cons_eq_ite]
  | cons a rest ih =>
    obtain ⟨a, w⟩ := a
    rw [insertEntry]
    split
    next => rw [lookup_cons_eq_ite]
    next c =>
      have same : k = a := Std.LawfulEqOrd.eq_of_compare c
      simp only [lookup_cons_eq_ite, same]
      split <;> rfl
    next c =>
      have differ : k ≠ a := by
        rintro rfl
        simp at c
      simp only [lookup_cons_eq_ite, ih]
      split
      next h => simp [h, differ.symm]
      next => rfl

@[simp] theorem get?_empty [DecidableEq κ] (k : κ) : (empty : SortedMap κ α).get? k = none := rfl

theorem get?_insert [DecidableEq κ] [Std.TransOrd κ] [Std.LawfulEqOrd κ] (m : SortedMap κ α)
    (k j : κ) (v : α) : (m.insert k v).get? j = if j = k then some v else m.get? j :=
  lookup_insertEntry k j v m.entries

/-- What is found in two maps is what the second one has, or else what the first one has. -/
theorem get?_merge [DecidableEq κ] [Std.TransOrd κ] [Std.LawfulEqOrd κ] (a b : SortedMap κ α)
    (k : κ) : (a.merge b).get? k = (b.get? k).or (a.get? k) := by
  have entries : ∀ (l : List (κ × α)) (m : SortedMap κ α),
      (l.Pairwise fun a b ↦ compare a.1 b.1 = .lt) →
        (l.foldl (fun m e ↦ m.insert e.1 e.2) m).get? k = (l.lookup k).or (m.get? k) := by
    intro l
    induction l with
    | nil => exact fun m _ ↦ rfl
    | cons e rest ih =>
      intro m sorted
      obtain ⟨first, sorted⟩ := List.pairwise_cons.1 sorted
      rw [List.foldl_cons, ih _ sorted, get?_insert, lookup_cons_eq_ite]
      split
      next same =>
        -- the key does not come again
        have none : rest.lookup k = none := by
          refine lookup_eq_none_iff_notMem.2 fun mem ↦ ?_
          obtain ⟨e', he', again⟩ := List.mem_map.1 mem
          have := first e' he'
          simp [again, same] at this
        rw [none]
        rfl
      next => rfl
  exact entries b.entries a b.sorted

end Ord

end SortedMap

end Taskflow
