import Taskflow.Decimal

/-!
# JSON documents

Values travel as JSON.  An object is a list of entries in the order in which they are written.
-/

namespace Taskflow

/-- A JSON document. -/
inductive Json where
  | null
  | bool (b : Bool)
  | int (n : Int)
  | real (x : Decimal)
  | str (s : String)
  | arr (items : List Json)
  | obj (entries : List (String × Json))
deriving Repr, Inhabited

namespace Json

mutual

/-- Whether two documents are the same. -/
def same : Json → Json → Bool
  | .null, .null => true
  | .bool a, .bool b => a == b
  | .int a, .int b => a == b
  | .real a, .real b => a == b
  | .str a, .str b => a == b
  | .arr a, .arr b => sameItems a b
  | .obj a, .obj b => sameEntries a b
  | _, _ => false

def sameItems : List Json → List Json → Bool
  | [], [] => true
  | a :: as, b :: bs => same a b && sameItems as bs
  | _, _ => false

def sameEntries : List (String × Json) → List (String × Json) → Bool
  | [], [] => true
  | (k, a) :: as, (l, b) :: bs => k == l && same a b && sameEntries as bs
  | _, _ => false

end

mutual

theorem eq_of_same : (a b : Json) → a.same b = true → a = b
  | .null, b, h => by cases b <;> simp_all [same]
  | .bool _, b, h => by cases b <;> simp_all [same]
  | .int _, b, h => by cases b <;> simp_all [same]
  | .real _, b, h => by cases b <;> simp_all [same]
  | .str _, b, h => by cases b <;> simp_all [same]
  | .arr as, b, h => by
    cases b with
    | arr bs =>
      rw [same] at h
      rw [eq_of_sameItems as bs h]
    | _ => simp [same] at h
  | .obj as, b, h => by
    cases b with
    | obj bs =>
      rw [same] at h
      rw [eq_of_sameEntries as bs h]
    | _ => simp [same] at h

theorem eq_of_sameItems : (as bs : List Json) → sameItems as bs = true → as = bs
  | [], [], _ => rfl
  | [], _ :: _, h => by simp [sameItems] at h
  | _ :: _, [], h => by simp [sameItems] at h
  | a :: as, b :: bs, h => by
    rw [sameItems, Bool.and_eq_true] at h
    rw [eq_of_same a b h.1, eq_of_sameItems as bs h.2]

theorem eq_of_sameEntries : (as bs : List (String × Json)) → sameEntries as bs = true → as = bs
  | [], [], _ => rfl
  | [], _ :: _, h => by simp [sameEntries] at h
  | _ :: _, [], h => by simp [sameEntries] at h
  | (k, a) :: as, (l, b) :: bs, h => by
    rw [sameEntries, Bool.and_eq_true, Bool.and_eq_true] at h
    obtain ⟨⟨key, value⟩, rest⟩ := h
    rw [eq_of_beq key, eq_of_same a b value, eq_of_sameEntries as bs rest]

end

mutual

theorem same_refl : (a : Json) → a.same a = true
  | .null | .bool _ | .int _ | .real _ | .str _ => by simp [same]
  | .arr as => by rw [same, sameItems_refl as]
  | .obj as => by rw [same, sameEntries_refl as]

theorem sameItems_refl : (as : List Json) → sameItems as as = true
  | [] => rfl
  | a :: as => by rw [sameItems, same_refl a, sameItems_refl as]; rfl

theorem sameEntries_refl : (as : List (String × Json)) → sameEntries as as = true
  | [] => rfl
  | (k, a) :: as => by simp [sameEntries, same_refl a, sameEntries_refl as]

end

instance : DecidableEq Json := fun a b ↦
  if h : a.same b = true then .isTrue (eq_of_same a b h)
  else .isFalse fun e ↦ h (e ▸ same_refl a)

/-- The value under a key of an object. -/
def get? (key : String) : Json → Option Json
  | .obj entries => entries.lookup key
  | _ => none

end Json

end Taskflow
