import Mathlib.Data.List.Basic
import Taskflow.Proofs.SortedMap
import Taskflow.Wire.Report

/-!
# Parts of documents read back

What the encoders write field by field is what the decoders find there: numbers below their limit,
tables and lists entry by entry, fields that may be left out, spans and ids.
-/

namespace Taskflow

namespace Json

/-- A number below the limit is read as it is. -/
theorem natBelow?_int {limit n : Nat} (h : n < limit) : natBelow? limit (.int n) = some n := by
  simp [natBelow?, h]

/-- A count is read as it is. -/
theorem count?_int {n : Nat} (h : n < Digits.countLimit) : count? (.int n) = some n :=
  natBelow?_int h

/-- A record whose tag is the name of a form has that form, numbered or not. -/
theorem tagged?_obj {forms : Forms} {numbered : Bool} {name : String}
    {fields : List (String × Json)} (known : name ∈ forms.map (·.1)) :
    (obj (("t", .str name) :: fields)).tagged? forms numbered =
      some (name, ("t", .str name) :: fields) := by
  obtain ⟨form, found, same⟩ := List.mem_map.1 known
  have some_form : (forms.find? (·.1 == name)).isSome :=
    List.find?_isSome.2 ⟨form, found, by simpa using same⟩
  obtain ⟨first, eq⟩ := Option.isSome_iff_exists.1 some_form
  have named : first.1 = name := by simpa using List.find?_some eq
  simp [tagged?, form?, eq, named]

/-- The form and the fields that are read of such a record. -/
theorem eq_of_tagged?_obj {forms : Forms} {numbered : Bool} {name form : String}
    {fields es : List (String × Json)} (known : name ∈ forms.map (·.1))
    (h : (obj (("t", .str name) :: fields)).tagged? forms numbered = some (form, es)) :
    form = name ∧ es = ("t", .str name) :: fields :=
  Prod.mk.inj (Option.some.inj (h.symm.trans (tagged?_obj known)))

variable {α : Type} {encode : α → Json} {decode : Json → Option α}

/-- A table is read entry by entry, in its order. -/
theorem tableOf?_map {κ : Type} (key : κ → String) {l : List (κ × α)}
    (h : ∀ e ∈ l, decode (encode e.2) = some e.2) :
    tableOf? decode (l.map fun e ↦ (key e.1, encode e.2)) =
      some (l.map fun e ↦ (key e.1, e.2)) := by
  induction l with
  | nil => rfl
  | cons e rest ih =>
    obtain ⟨first, rest⟩ := List.forall_mem_cons.1 h
    simp [tableOf?, first, ih rest]

/-- A list is read item by item. -/
theorem listOf?_map {l : List α} (h : ∀ a ∈ l, decode (encode a) = some a) :
    listOf? decode (l.map encode) = some l := by
  induction l with
  | nil => rfl
  | cons a rest ih =>
    obtain ⟨first, rest⟩ := List.forall_mem_cons.1 h
    simp [listOf?, first, ih rest]

/-- What is written as an optional field is read as that, if what is there is never null and the
field does not come again behind it. -/
theorem optional?_lookup {key : String} {a : Option α} {rest : List (String × Json)}
    (back : ∀ x, decode (encode x) = some x) (full : ∀ x, encode x ≠ .null)
    (absent : rest.lookup key = none) :
    optional? decode ((optionalField key encode a ++ rest).lookup key) = some a := by
  cases a with
  | none => rw [optionalField, List.nil_append, absent, optional?]
  | some x =>
    have found : (optionalField key encode (some x) ++ rest).lookup key = some (encode x) := by
      simp [optionalField]
    rw [found, optional?, back x]
    · rfl
    · exact full x

/-- An optional field does not hide another one. -/
theorem lookup_optionalField_append {key other : String} {a : Option α}
    {rest : List (String × Json)} (h : other ≠ key) :
    (optionalField key encode a ++ rest).lookup other = rest.lookup other := by
  cases a with
  | none => rfl
  | some x => exact (lookup_cons_eq_ite ..).trans (if_neg h)

end Json

/-- What a position consists of fits into 64 bits. -/
def Position.Fits (p : Position) : Prop :=
  p.offset < Digits.countLimit ∧ p.line < Digits.countLimit ∧ p.column < Digits.countLimit
deriving Decidable

namespace Span

/-- Where a span begins and where it ends fits into 64 bits. -/
def Fits (s : Span) : Prop := s.start.Fits ∧ s.stop.Fits
deriving Decidable

/-- A span is read back. -/
theorem decode?_encode {s : Span} (h : s.Fits) : decode? s.encode = some s := by
  obtain ⟨⟨ho, hl, hc⟩, ⟨ho', hl', hc'⟩⟩ := h
  -- conversion would count down from the limit
  simp -implicitDefEqProofs [decode?, encode, Json.members?, List.lookup_cons, Json.required?,
    Json.count?_int, *]

/-- The field of a span is read back, also if it is left out. -/
theorem decodeField?_encodeField {s : Span} (h : s.Fits) :
    decodeField? s.encodeField = some s := by
  rw [decodeField?, encodeField]
  split
  next nowhere => rw [nowhere, List.lookup_nil, Json.defaulted?]
  next => rw [lookup_cons_eq_ite, if_pos rfl, Json.defaulted?, decode?_encode h]

/-- The field of a span is read behind other fields. -/
theorem decodeField?_cons {key : String} {j : Json} {rest : List (String × Json)}
    (h : "span" ≠ key) : decodeField? ((key, j) :: rest) = decodeField? rest := by
  rw [decodeField?, decodeField?, lookup_cons_eq_ite, if_neg h]

end Span

/-- An id is read back. -/
theorem NodeId.decode?_encode {n : NodeId} (h : n < idLimit) : decode? n.encode = some n :=
  Json.natBelow?_int h

/-- A key that writes an id is read as that id. -/
theorem nodeIdOfKey?_repr {n : NodeId} (h : n < NodeId.idLimit) :
    nodeIdOfKey? (Nat.repr n) = some n := by
  have digits : Digits.nat? (Nat.repr n).toList = some n := by
    have all : (Nat.toDigits 10 n).all Char.isDigit = true :=
      List.all_eq_true.2 fun c hc ↦ Nat.isDigit_of_mem_toDigits (by decide) (by decide) hc
    have value : Digits.value (Nat.toDigits 10 n) = n :=
      Nat.ofDigitChars_toDigits (by decide) (by decide)
    simp [Nat.repr, Digits.nat?, all, value, Nat.toDigits_ne_nil]
  rw [nodeIdOfKey?, digits]
  exact if_pos ⟨h, rfl⟩

end Taskflow
