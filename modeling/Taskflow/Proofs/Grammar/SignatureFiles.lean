import Taskflow.Proofs.Grammar.Building
import Taskflow.Proofs.SortedMap

/-!
# Signature files

A text of signatures alone is also the beginning of a program.  It is read by the same rules, of
which it needs only those for names and types (`read_program_of_read_signatures`), and the
environment that it makes lists its items (`Environment.parse_spec`).
-/

namespace Taskflow

namespace Grammar

def Item.IsSignature : Item → Prop
  | .signature .. => True
  | _ => False

/-- Where the reader can be in a text of signatures. -/
def Phase.InSignature : Phase → Prop
  | .item | .name .. | .tyOperand .. | .tyOperator .. => True
  | _ => False

variable {tok : Token} {items : List Item} {phase : Phase} {r : Reading}

theorem Begins.program {before : List Construct} (h : Begins .signatures before tok phase) :
    Begins .program before tok phase ∧ phase.InSignature := by
  cases h with
  | keyword program | paren program => cases program
  | name _ lexeme ne_functor ne_o => exact ⟨.name nofun lexeme ne_functor ne_o, trivial⟩

/-- A token of a text of signatures is read as it is in a program.  It leaves the reader in a
signature and completes nothing but signatures. -/
theorem Moves.program (h : Moves .signatures tok items phase r) (inside : phase.InSignature)
    (complete : ∀ i ∈ items, i.IsSignature) : Moves .program tok items phase r ∧
      r.phase.InSignature ∧ ∀ i ∈ r.items, i.IsSignature := by
  cases h with
  | begin begins => exact ⟨.begin begins.program.1, begins.program.2, complete⟩
  | signature lexeme => exact ⟨.signature lexeme, trivial, complete⟩
  | functor program | name program => cases program
  | tyWord lexeme => exact ⟨.tyWord lexeme, trivial, complete⟩
  | tyParen lexeme => exact ⟨.tyParen lexeme, trivial, complete⟩
  | tyUnit lexeme => exact ⟨.tyUnit lexeme, trivial, complete⟩
  | tyTimes lexeme => exact ⟨.tyTimes lexeme, trivial, complete⟩
  | tyArrow lexeme => exact ⟨.tyArrow lexeme, trivial, complete⟩
  | tyClose lexeme => exact ⟨.tyClose lexeme, trivial, complete⟩
  | tyBracket lexeme => exact ⟨.tyBracket lexeme, trivial, complete⟩
  | tyComma lexeme => exact ⟨.tyComma lexeme, trivial, complete⟩
  | tyArguments lexeme => exact ⟨.tyArguments lexeme, trivial, complete⟩
  | tyComplete begins =>
    exact ⟨.tyComplete begins.program.1, begins.program.2,
      List.forall_mem_cons.2 ⟨trivial, complete⟩⟩
  | keyword | functorName | word | paren | times | after | close | complete => exact inside.elim

/-- A text of signatures is read as a program is, and all its items are signatures. -/
theorem read_program_of_read_signatures {text : String} (h : read .signatures text = .ok items) :
    read .program text = .ok items ∧ ∀ i ∈ items, i.IsSignature := by
  have all {tokens : List Token} {r r' : Reading} (inside : r.phase.InSignature)
      (complete : ∀ i ∈ r.items, i.IsSignature)
      (run : tokens.foldlM (Reading.step .signatures) r = .ok r') :
      tokens.foldlM (Reading.step .program) r = .ok r' ∧
        r'.phase.InSignature ∧ ∀ i ∈ r'.items, i.IsSignature := by
    induction tokens generalizing r with
    | nil =>
      cases run
      exact ⟨rfl, inside, complete⟩
    | cons tok tokens ih =>
      rw [List.foldlM_cons] at run
      obtain ⟨middle, first, later⟩ := Except.bind_eq_ok_iff.1 run
      obtain ⟨moves, inside', complete'⟩ := (moves_of_step first).program inside complete
      obtain ⟨reads, final⟩ := ih inside' complete' later
      exact ⟨Except.bind_eq_ok_iff.2 ⟨middle, step_of_moves moves, reads⟩, final⟩
  obtain ⟨r, run, finishes⟩ := Except.bind_eq_ok_iff.1 h
  have start : Phase.InSignature .item := trivial
  obtain ⟨reads, inside, complete⟩ := all start (List.forall_mem_nil _) run
  obtain ⟨last, ends, rfl⟩ := finishes_of_finish finishes
  have signature : ∀ i ∈ last, i.IsSignature := by
    obtain ⟨done, phase⟩ := r
    cases ends with
    | item => exact List.forall_mem_nil _
    | name => cases finishes
    | expression => exact inside.elim
    | signature => exact List.forall_mem_singleton.2 trivial
  refine ⟨Except.bind_eq_ok_iff.2 ⟨r, reads, finish_of_finishes ends⟩, fun i hi ↦ ?_⟩
  rcases List.mem_append.1 hi with hi | hi
  · exact complete i (List.mem_reverse.1 hi)
  · exact signature i hi

/-! ## Environments -/

namespace Item

/-- What an item says about the type of a task. -/
def declared? : Item → Option (String × Ty)
  | .signature name ty _ => some (name.text, ty)
  | _ => none

/-- What the signature table says about types. -/
theorem map_signature?_eq (items : List Item) :
    (items.filterMap signature?).map (fun s ↦ (s.2.name, s.2.ty)) = items.filterMap declared? := by
  rw [List.map_filterMap]
  refine List.filterMap_congr fun i _ ↦ ?_
  cases i <;> rfl

theorem map_fst_declared? (items : List Item) :
    (items.filterMap declared?).map (·.1) = items.filterMap signatureName? := by
  rw [List.map_filterMap]
  refine List.filterMap_congr fun i _ ↦ ?_
  cases i <;> rfl

end Item

/-- Signatures that are collected are those of the items, and no two have one name. -/
theorem buildSignatures_spec {signatures : List Signature}
    (h : buildSignatures items = .ok signatures) :
    (items.filterMap Item.signatureName?).Nodup ∧
      signatures = (items.filterMap Item.signature?).map (·.2) := by
  obtain ⟨table, collected, same⟩ := Except.bind_eq_ok_iff.1 h
  cases same
  have all {items : List Item} {t t' : Table Signature} (nodup : (t.map (·.1)).Nodup)
      (h : items.foldlM (fun t item ↦ match item with
        | .signature name ty span => addSignature t ⟨name.text, ty, span⟩
        | _ => .ok t) t = .ok t') :
      t' = t ++ items.filterMap Item.signature? ∧ (t'.map (·.1)).Nodup := by
    induction items generalizing t with
    | nil =>
      cases h
      exact ⟨(List.append_nil _).symm, nodup⟩
    | cons item items ih =>
      rw [List.foldlM_cons] at h
      obtain ⟨middle, first, rest⟩ := Except.bind_eq_ok_iff.1 h
      cases item with
      | signature name ty span =>
        obtain ⟨fresh, rfl⟩ := addSignature_eq_ok_iff.1 first
        have nodup' :
            ((t ++ [(name.text, (⟨name.text, ty, span⟩ : Signature))]).map (·.1)).Nodup := by
          rw [List.map_append, List.map_singleton, List.nodup_append_comm]
          exact List.nodup_cons.2 ⟨fresh, nodup⟩
        obtain ⟨rfl, distinct⟩ := ih nodup' rest
        exact ⟨by simp [Item.signature?], distinct⟩
      | functor | expression =>
        cases first
        exact ih nodup rest
  have nothing : (([] : Table Signature).map (·.1)).Nodup := .nil
  obtain ⟨rfl, distinct⟩ := all nothing collected
  rw [List.nil_append, Item.map_fst_signatures] at distinct
  exact ⟨distinct, rfl⟩

/-- Signatures with names that differ are collected. -/
theorem buildSignatures_eq_ok {items : List Item}
    (distinct : (items.filterMap Item.signatureName?).Nodup) :
    buildSignatures items = .ok ((items.filterMap Item.signature?).map (·.2)) := by
  have all {items : List Item} {t : Table Signature}
      (distinct : (t.map (·.1) ++ items.filterMap Item.signatureName?).Nodup) :
      items.foldlM (fun t item ↦ match item with
        | .signature name ty span => addSignature t ⟨name.text, ty, span⟩
        | _ => .ok t) t = .ok (t ++ items.filterMap Item.signature?) := by
    induction items generalizing t with
    | nil => exact congrArg Except.ok (List.append_nil t).symm
    | cons item items ih =>
      cases item with
      | signature name ty span =>
        have fresh : name.text ∉ t.map (·.1) := fun mem ↦
          (List.nodup_append.1 distinct).2.2 _ mem _ List.mem_cons_self rfl
        refine Except.bind_eq_ok_iff.2 ⟨_, addSignature_eq_ok_iff.2 ⟨fresh, rfl⟩, ?_⟩
        refine (ih ?_).trans ?_
        · simpa [Item.signatureName?] using distinct
        · simp [Item.signature?]
      | functor | expression => exact ih distinct
  exact Except.bind_eq_ok_iff.2 ⟨_, all (t := []) distinct, by simp⟩

end Grammar

open Grammar

/-- A program declares what its items declare. -/
theorem Program.Lists.declared_eq {p : Program} {items : List Item} {text : Span}
    (lists : p.Lists items text) : p.declared = .ofList (items.filterMap Item.declared?) := by
  rw [Program.declared, lists.signatures, Item.map_signature?_eq]

/-- The environment of a text of signatures lists its items, each of which has its own name. -/
theorem Environment.parse_spec {text : String} {base : Environment}
    (h : Environment.parse text = .ok base) :
    ∃ items, read .signatures text = .ok items ∧
      (items.filterMap Item.signatureName?).Nodup ∧
      base = .ofList (items.filterMap Item.declared?) := by
  obtain ⟨signatures, parsed, same⟩ := Except.bind_eq_ok_iff.1 h
  obtain ⟨items, accepted, collected⟩ := Except.bind_eq_ok_iff.1 parsed
  obtain ⟨distinct, rfl⟩ := buildSignatures_spec (Except.mapError_eq_ok_iff.1 collected)
  cases same
  refine ⟨items, Except.mapError_eq_ok_iff.1 accepted, distinct, ?_⟩
  rw [List.map_map, ← Item.map_signature?_eq]
  rfl

end Taskflow
