/-!
# Results of fallible steps

How a sequence of fallible steps is taken apart when it is known how it went.
-/

namespace Except

variable {ε ε' α β : Type}

/-- Two steps go well if the first yields something with which the second goes well. -/
theorem bind_eq_ok_iff {x : Except ε α} {f : α → Except ε β} {b : β} :
    (x >>= f) = .ok b ↔ ∃ a, x = .ok a ∧ f a = .ok b := by
  cases x with
  | error e => simp [bind, Except.bind]
  | ok a => simp [bind, Except.bind]

/-- Two steps fail if the first does, or if it yields something with which the second does. -/
theorem bind_eq_error_iff {x : Except ε α} {f : α → Except ε β} {e : ε} :
    (x >>= f) = .error e ↔ x = .error e ∨ ∃ a, x = .ok a ∧ f a = .error e := by
  cases x with
  | error e => simp [bind, Except.bind]
  | ok a => simp [bind, Except.bind]

/-- Renaming errors does not touch what went well. -/
theorem mapError_eq_ok_iff {x : Except ε α} {f : ε → ε'} {a : α} :
    x.mapError f = .ok a ↔ x = .ok a := by
  cases x with
  | error e => constructor <;> rintro ⟨⟩
  | ok b => constructor <;> rintro ⟨⟩ <;> rfl

theorem mapError_eq_error_iff {x : Except ε α} {f : ε → ε'} {e : ε'} :
    x.mapError f = .error e ↔ ∃ e', e = f e' ∧ x = .error e' := by
  cases x with
  | ok a =>
    constructor
    · rintro ⟨⟩
    · rintro ⟨_, -, ⟨⟩⟩
  | error e' =>
    constructor
    · rintro ⟨⟩
      exact ⟨e', rfl, rfl⟩
    · rintro ⟨_, rfl, ⟨⟩⟩
      rfl

/-- Where steps fail one after the other, one of them fails behind others that went well. -/
theorem exists_of_foldlM_eq_error {f : β → α → Except ε β} {l : List α} {b : β} {e : ε}
    (h : l.foldlM f b = .error e) :
    ∃ before a after b', before ++ a :: after = l ∧ before.foldlM f b = .ok b' ∧
      f b' a = .error e := by
  induction l generalizing b with
  | nil => cases h
  | cons a l ih =>
    rw [List.foldlM_cons] at h
    rcases bind_eq_error_iff.1 h with fails | ⟨b', first, later⟩
    · exact ⟨[], a, l, b, rfl, rfl, fails⟩
    · obtain ⟨before, a', after, b'', rfl, run, fails⟩ := ih later
      exact ⟨a :: before, a', after, b'', rfl, bind_eq_ok_iff.2 ⟨b', first, run⟩, fails⟩

/-- Something that went well yielded something. -/
theorem eq_ok_get {x : Except ε α} (h : x.toOption.isSome) : x = .ok (x.toOption.get h) := by
  cases x with
  | error e => cases h
  | ok a => rfl

end Except
