import Mathlib.Data.List.Nodup
import Taskflow.SortedMap

/-!
# Maps as functions of their keys

A table that has each key once is known, up to the order of its entries, by what is found in it.  A
sorted map has one order only, so what is found under each key says which map it is.
-/

namespace Taskflow

variable {κ α : Type} [DecidableEq κ]

/-- In a table that has each key once, every entry is found. -/
theorem lookup_eq_some_of_mem {k : κ} {v : α} {l : List (κ × α)} (nodup : (l.map (·.1)).Nodup)
    (h : (k, v) ∈ l) : l.lookup k = some v := by
  obtain ⟨before, after, rfl⟩ := List.append_of_mem h
  refine List.lookup_eq_some_iff.2 ⟨before, after, rfl, fun e he ↦ ?_⟩
  rw [List.map_append, List.map_cons] at nodup
  have differ : k ≠ e.1 := fun same ↦
    (List.disjoint_of_nodup_append nodup) (List.mem_map_of_mem he) (same ▸ List.mem_cons_self)
  simpa using differ

/-- In a table that has each key once, what is found is what is an entry. -/
theorem lookup_eq_some_iff_mem {k : κ} {v : α} {l : List (κ × α)}
    (nodup : (l.map (·.1)).Nodup) : l.lookup k = some v ↔ (k, v) ∈ l :=
  ⟨mem_of_lookup_eq_some, lookup_eq_some_of_mem nodup⟩

/-- The order of entries does not matter where each key comes once. -/
theorem lookup_eq_of_perm {l l' : List (κ × α)} (perm : l.Perm l') (nodup : (l.map (·.1)).Nodup)
    (k : κ) : l.lookup k = l'.lookup k := by
  refine Option.ext fun v ↦ ?_
  rw [lookup_eq_some_iff_mem nodup, lookup_eq_some_iff_mem ((perm.map _).nodup_iff.1 nodup),
    perm.mem_iff]

namespace SortedMap

variable [Ord κ] [Std.TransOrd κ]

omit [DecidableEq κ] in
/-- A sorted map has each key once. -/
theorem nodup_keys (m : SortedMap κ α) : (m.entries.map (·.1)).Nodup := by
  rw [List.Nodup, List.pairwise_map]
  refine m.sorted.imp fun {a b} lt same ↦ ?_
  rw [same, Std.compare_self] at lt
  cases lt

/-- Maps in which the same is found are the same. -/
theorem eq_of_get?_eq {a b : SortedMap κ α} (h : ∀ k, a.get? k = b.get? k) : a = b := by
  have perm : a.entries.Perm b.entries := by
    refine (List.perm_ext_iff_of_nodup a.nodup_keys.of_map b.nodup_keys.of_map).2 ?_
    rintro ⟨k, v⟩
    rw [← lookup_eq_some_iff_mem a.nodup_keys, ← lookup_eq_some_iff_mem b.nodup_keys]
    exact Eq.congr_left (h k)
  refine ext (perm.eq_of_pairwise (fun e e' _ _ lt gt ↦ ?_) a.sorted b.sorted)
  -- no two entries can be in either order
  rw [Std.OrientedCmp.gt_of_lt gt] at lt
  cases lt

variable [Std.LawfulEqOrd κ]

@[simp] theorem empty_merge (m : SortedMap κ α) : empty.merge m = m :=
  eq_of_get?_eq fun k ↦ by rw [get?_merge, get?_empty, Option.or_none]

/-- A map results from its entries. -/
@[simp] theorem ofList_entries (m : SortedMap κ α) : ofList m.entries = m := empty_merge m

/-- Of entries with one key the last one is found. -/
theorem get?_foldl_insert (l : List (κ × α)) (m : SortedMap κ α) (k : κ) :
    (l.foldl (fun m e ↦ m.insert e.1 e.2) m).get? k = (l.reverse.lookup k).or (m.get? k) := by
  induction l generalizing m with
  | nil => rfl
  | cons e l ih =>
    rw [List.foldl_cons, ih, get?_insert, List.reverse_cons, List.lookup_append, Option.or_assoc,
      lookup_cons_eq_ite]
    split <;> rfl

theorem get?_ofList (l : List (κ × α)) (k : κ) : (ofList l).get? k = l.reverse.lookup k :=
  (get?_foldl_insert l empty k).trans (Option.or_none)

theorem get?_ofList_eq_none_iff {l : List (κ × α)} {k : κ} :
    (ofList l).get? k = none ↔ k ∉ l.map (·.1) := by
  rw [get?_ofList, lookup_eq_none_iff_notMem, List.map_reverse, List.mem_reverse]

/-- The entries of one list and then those of another one make up both maps together. -/
theorem ofList_append (l l' : List (κ × α)) : ofList (l ++ l') = (ofList l).merge (ofList l') :=
  eq_of_get?_eq fun k ↦ by
    rw [get?_merge, get?_ofList, get?_ofList, get?_ofList, List.reverse_append, List.lookup_append]

theorem ofList_eq_of_perm {l l' : List (κ × α)} (perm : l.Perm l') (nodup : (l.map (·.1)).Nodup) :
    ofList l = ofList l' :=
  eq_of_get?_eq fun k ↦ by
    have reversed : (l.reverse.map (·.1)).Nodup := by
      rwa [List.map_reverse, List.nodup_reverse]
    have perm' : l.reverse.Perm l'.reverse :=
      (List.reverse_perm l).trans (perm.trans (List.reverse_perm l').symm)
    rw [get?_ofList, get?_ofList, lookup_eq_of_perm perm' reversed]

end SortedMap

end Taskflow
