import Taskflow.Proofs.Grammar.Completion
import Taskflow.Proofs.Grammar.Positions

/-!
# Where a text is refused

A syntax error lies at the token that the reader refuses, at the end of the text, or at the head of
the declaration that breaks off there.  In each case the text in front of it has been read, so some
continuation of it is accepted (`Grammar.Entry.viable_of_refuses`).  The line and the column of the
error are those of its offset, also where `\r\n` is counted as one line end, and its message names
everything that could have stood there.
-/

namespace Taskflow

namespace Grammar

/-! ## Messages -/

/-- Whether a text is part of another one. -/
def PartOf (s text : String) : Prop := ∃ before after, text = before ++ s ++ after

theorem PartOf.append {s text : String} (h : PartOf s text) (before after : String) :
    PartOf s (before ++ text ++ after) := by
  obtain ⟨b, a, rfl⟩ := h
  exact ⟨before ++ b, a ++ after, by simp only [String.append_assoc]⟩

theorem partOf_intercalate {s separator : String} {names : List String} (h : s ∈ names) :
    PartOf s (separator.intercalate names) := by
  induction names with
  | nil => cases h
  | cons name names ih =>
    cases names with
    | nil =>
      obtain rfl := List.mem_singleton.1 h
      exact ⟨"", "", by simp⟩
    | cons name' names =>
      rw [String.intercalate_cons_cons]
      rcases List.mem_cons.1 h with rfl | h
      · exact ⟨"", _, by rw [String.empty_append, String.append_assoc]⟩
      · simpa using (ih h).append (name ++ separator) ""

theorem partOf_alternatives {s : String} {names : List String} (h : s ∈ names) :
    PartOf s (alternatives names) := by
  match names with
  | [] => cases h
  | [a] =>
    obtain rfl := List.mem_singleton.1 h
    exact ⟨"", "", by simp [alternatives]⟩
  | [a, b] =>
    rcases List.mem_pair.1 h with rfl | rfl
    · exact ⟨"", " or " ++ b, by simp [alternatives, String.append_assoc]⟩
    · exact ⟨a ++ " or ", "", by simp [alternatives]⟩
  | a :: b :: c :: rest =>
    rw [alternatives]
    rw [← List.dropLast_append_getLast (List.cons_ne_nil a (b :: c :: rest))] at h
    rcases List.mem_append.1 h with h | h
    · simpa [String.append_assoc] using (partOf_intercalate h).append "" _
    · rw [List.mem_singleton.1 h]
      exact ⟨_, "", (String.append_empty).symm⟩

/-- A message names everything that could have stood at the place of the error. -/
theorem SyntaxError.partOf_message {err : SyntaxError} {c : Construct} (h : c ∈ err.expected) :
    PartOf c.describe err.message := by
  have known : c ∈ Construct.all := by cases c <;> decide
  have mem : c.describe ∈ (Construct.all.filter (· ∈ err.expected)).map Construct.describe :=
    List.mem_map_of_mem (List.mem_filter.2 ⟨known, by simpa using h⟩)
  simpa [message] using (partOf_alternatives mem).append "expected " ""

/-! ## Places -/

/-- Where the declaration begins whose head is in progress. -/
def Phase.head? : Phase → Option Position
  | .name _ word => some word.span.start
  | .keyword _ start | .functorName _ start _ => some start
  | _ => none

/-- What is known of an error at `p`, or at the head of the declaration in progress. -/
def Phase.Refuses (phase : Phase) (p : Position) (err : SyntaxError) : Prop :=
  err.expected ≠ [] ∧ (err.place = p ∨ phase.head? = some err.place)

theorem Entry.place_refuseItem (e : Entry) (before : List Construct) (p : Position) :
    (e.refuseItem before p).place = p ∧ (e.refuseItem before p).expected ≠ [] := by
  unfold Entry.refuseItem
  split
  · cases e <;> exact ⟨rfl, nofun⟩
  · exact ⟨rfl, nofun⟩

theorem Entry.place_refuseSignature (before : List Construct) (p : Position) :
    (Entry.refuseSignature before p).place = p ∧
      (Entry.refuseSignature before p).expected ≠ [] := by
  unfold Entry.refuseSignature
  split <;> exact ⟨rfl, nofun⟩

theorem tyContinuations_ne_nil (bare : Option (String × Position)) (p : Position) :
    tyContinuations bare p ≠ [] := by
  unfold tyContinuations
  split
  · split <;> nofun
  · nofun

section

variable {e : Entry} {tok : Token} {err : SyntaxError} {items : List Item} {p : Position}

theorem place_of_beginItem_error {before : List Construct}
    (h : e.beginItem before tok = .error err) : err.place = tok.start ∧ err.expected ≠ [] := by
  unfold Entry.beginItem at h
  split at h
  · cases h
  · cases h
  · cases h
    exact Entry.place_refuseItem _ _ _
  · split at h
    · cases h
      exact Entry.place_refuseItem _ _ _
    · cases h
  · cases h
    exact Entry.place_refuseItem _ _ _

theorem place_of_operate_error {goal : Goal} {outer : List Waiting} {here : Waiting} {x : Expr}
    {stop : Position} (h : Phase.operate e items goal outer here x stop tok = .error err) :
    err.place = tok.start ∧ err.expected ≠ [] := by
  unfold Phase.operate at h
  split at h
  · cases h
  · cases h
  · cases h
  · cases h
  · cases h
    exact ⟨rfl, nofun⟩
  · rcases Except.bind_eq_error_iff.1 h with begins | ⟨phase, -, done⟩
    · exact place_of_beginItem_error begins
    · cases done

theorem place_of_leaveTy_error {name : Word} {outer : List (WaitingTy × Bracket)}
    {here : WaitingTy} {t : Ty} {bare : Option (String × Position)}
    (h : Phase.leaveTy e items name outer here t bare tok = .error err) :
    err.place = tok.start ∧ err.expected ≠ [] := by
  unfold Phase.leaveTy at h
  split at h
  · cases h
    exact ⟨rfl, tyContinuations_ne_nil _ _⟩
  · rcases Except.bind_eq_error_iff.1 h with begins | ⟨phase, -, done⟩
    · exact place_of_beginItem_error begins
    · cases done

theorem place_of_operateTy_error {name : Word} {outer : List (WaitingTy × Bracket)}
    {here : WaitingTy} {t : Ty} {bare : Option (String × Position)}
    (h : Phase.operateTy e items name outer here t bare tok = .error err) :
    err.place = tok.start ∧ err.expected ≠ [] := by
  unfold Phase.operateTy at h
  split at h
  · cases h
  · cases h
  · cases h
  · cases h
  · cases h
  · split at h
    · cases h
    · exact place_of_leaveTy_error h
  · exact place_of_leaveTy_error h

theorem place_of_operandTy_error {name : Word} {outer : List (WaitingTy × Bracket)}
    {here : WaitingTy} {fresh : Bool}
    (h : Phase.operandTy items name outer here fresh tok = .error err) :
    err.place = tok.start ∧ err.expected ≠ [] := by
  have refused : (Phase.operandTy.refuse here tok).place = tok.start ∧
      (Phase.operandTy.refuse here tok).expected ≠ [] := by
    refine ⟨rfl, ?_⟩
    unfold Phase.operandTy.refuse
    dsimp only
    split <;> nofun
  unfold Phase.operandTy at h
  split at h
  · cases h
  · cases h
  · split at h
    · cases h
    · cases h
      exact refused
  · cases h
    exact refused

/-- A token is refused where it begins, or at the head of the declaration that it breaks off. -/
theorem refuses_of_step_error {r : Reading} (h : r.step e tok = .error err) :
    r.phase.Refuses tok.start err := by
  obtain ⟨items, phase⟩ := r
  -- an error at the token
  have here (at' : err.place = tok.start ∧ err.expected ≠ []) : phase.Refuses tok.start err :=
    ⟨at'.2, .inl at'.1⟩
  unfold Reading.step at h
  cases phase with
  | item =>
    rcases Except.bind_eq_error_iff.1 h with begins | ⟨phase, -, done⟩
    · exact here (place_of_beginItem_error begins)
    · cases done
  | name before word =>
    have head (same : Entry.refuseSignature before word.span.start = err) :
        (Phase.name before word).Refuses tok.start err := by
      obtain ⟨place, expected⟩ := Entry.place_refuseSignature before word.span.start
      rw [same] at place expected
      exact ⟨expected, .inr (congrArg some place.symm)⟩
    dsimp only at h
    split at h
    · cases h
    · split at h
      · cases h
      · exact head (Except.error.inj h)
    · split at h
      · exact here (place_of_operate_error h)
      · exact head (Except.error.inj h)
  | keyword before start =>
    dsimp only at h
    split at h
    · split at h
      · cases h
        exact here ⟨rfl, nofun⟩
      · cases h
    · cases h
      exact here ⟨rfl, nofun⟩
  | functorName before start word =>
    dsimp only at h
    split at h
    · cases h
    · obtain ⟨place, expected⟩ := e.place_refuseItem before start
      rw [Except.error.inj h] at place expected
      exact ⟨expected, .inr (congrArg some place.symm)⟩
  | operand goal outer waiting =>
    dsimp only at h
    split at h
    · split at h
      · cases h
        exact here ⟨rfl, nofun⟩
      · cases h
    · cases h
    · cases h
      exact here ⟨rfl, nofun⟩
  | operator => exact here (place_of_operate_error h)
  | tyOperand => exact here (place_of_operandTy_error h)
  | tyOperator => exact here (place_of_operateTy_error h)

/-- The end of a text is refused where it is, or at the head of the declaration that breaks off. -/
theorem refuses_of_finish_error {r : Reading} (h : r.finish e p = .error err) :
    r.phase.Refuses p err := by
  obtain ⟨items, phase⟩ := r
  cases phase with
  | item => cases h
  | name before word =>
    obtain ⟨place, expected⟩ := Entry.place_refuseSignature before word.span.start
    cases e with
    | program => cases h
    | signatures | expression =>
      rw [show Entry.refuseSignature before word.span.start = err from Except.error.inj h]
        at place expected
      exact ⟨expected, .inr (congrArg some place.symm)⟩
  | keyword | operand =>
    cases h
    exact ⟨nofun, .inl rfl⟩
  | functorName before start word =>
    obtain ⟨place, expected⟩ := e.place_refuseItem before start
    rw [show e.refuseItem before start = err from Except.error.inj h] at place expected
    exact ⟨expected, .inr (congrArg some place.symm)⟩
  | operator goal outer here x stop =>
    cases outer with
    | nil => cases h
    | cons up outer =>
      cases h
      exact ⟨nofun, .inl rfl⟩
  | tyOperand name outer here fresh =>
    cases h
    refine ⟨?_, .inl rfl⟩
    dsimp only
    split <;> nofun
  | tyOperator name outer here t bare =>
    cases outer with
    | nil => cases h
    | cons up outer =>
      cases h
      exact ⟨tyContinuations_ne_nil _ _, .inl rfl⟩

/-- The head of a declaration begins with the token that begins the declaration. -/
theorem Moves.head? {phase : Phase} {r : Reading} {s : Position} (h : Moves e tok items phase r)
    (head : r.phase.head? = some s) : s = tok.start ∨ phase.head? = some s := by
  -- what begins with the token has its head there
  have fresh {before : List Construct} {phase : Phase} (begins : Begins e before tok phase)
      (head : phase.head? = some s) : s = tok.start := by
    cases begins with
    | paren => cases head
    | keyword | name => exact (Option.some.inj head).symm
  induction h with
  | begin begins | complete begins | tyComplete begins => exact .inl (fresh begins head)
  | name _ _ ih => exact .inl ((ih head).resolve_right nofun)
  | keyword => exact .inr head
  | _ => cases head

end

/-! ## Texts -/

variable {e : Entry} {text : String} {err : SyntaxError}

/-- A text is refused behind tokens that were read, at the next token or at its end. -/
theorem exists_run_of_read_error (h : read e text = .error err) :
    ∃ before after p r, before ++ after = (tokenize text).list ∧
      before.foldlM (Reading.step e) ⟨[], e.start p⟩ = .ok r ∧
      r.phase.Refuses ((after.head?.map Token.start).getD (tokenize text).stop) err := by
  rcases Except.bind_eq_error_iff.1 h with fails | ⟨r, run, fails⟩
  · obtain ⟨before, tok, after, r, split, run, fails⟩ := Except.exists_of_foldlM_eq_error fails
    exact ⟨before, tok :: after, _, r, split, run, refuses_of_step_error fails⟩
  · exact ⟨_, [], _, r, List.append_nil _, run, refuses_of_finish_error fails⟩

/-- A text is refused behind a part of it that is viable. -/
theorem viable_of_read_error (h : read e text = .error err) :
    err.expected ≠ [] ∧ ∃ front back, text.toList = front ++ back ∧ e.Viable front ∧
      err.place = Position.origin.advanceAll front := by
  obtain ⟨before, after, p, r, split, run, expected, place | head⟩ := exists_run_of_read_error h
  · obtain ⟨front, back, whole, viable, stop⟩ := viable_of_run split run
    exact ⟨expected, front, back, whole, viable, place.trans stop.symm⟩
  · -- the head begins with a token, and what stands in front of that was read as well
    obtain ⟨before', all, heads⟩ := run_spec
      (P := fun r rest ↦ ∃ before, before ++ rest = (tokenize text).list ∧
        ∀ s, r.phase.head? = some s → ∃ t ∈ before, t.start = s)
      (fun {r tok rest r'} held moves ↦ by
        obtain ⟨before, all, heads⟩ := held
        refine ⟨before ++ [tok], by simpa using all, fun s head ↦ ?_⟩
        rcases moves.head? head with rfl | head
        · exact ⟨tok, List.mem_append_right _ (List.mem_singleton.2 rfl), rfl⟩
        · obtain ⟨t, ht, start⟩ := heads s head
          exact ⟨t, List.mem_append_left _ ht, start⟩)
      ⟨[], split, fun s head ↦ by cases e <;> cases head⟩ run
    obtain rfl : before' = before := List.append_cancel_right (all.trans split.symm)
    obtain ⟨t, ht, start⟩ := heads _ head
    obtain ⟨first, more, rfl⟩ := List.append_of_mem ht
    rw [List.foldlM_append] at run
    obtain ⟨r', run, -⟩ := Except.bind_eq_ok_iff.1 run
    rw [List.append_assoc, List.cons_append] at split
    obtain ⟨front, back, whole, viable, stop⟩ := viable_of_run split run
    exact ⟨expected, front, back, whole, viable, start.symm.trans stop.symm⟩

/-- Whether a text has a syntax error if it is parsed as what `e` says. -/
def Entry.Refuses (e : Entry) (text : String) (err : SyntaxError) : Prop :=
  match e with
  | .program => Program.parse text = .error (.grammar err)
  | .signatures => Signature.parseAll text = .error (.grammar err)
  | .expression => Node.parse text = .error (.grammar err)

/-- A syntax error is one of the reader. -/
theorem Entry.Refuses.read (h : e.Refuses text err) : Grammar.read e text = .error err := by
  have syntactic {α β : Type} {x : Except SyntaxError α} {f : α → Except ParseError β}
      (h : (x.mapError .grammar >>= f) = .error (.grammar err))
      (other : ∀ a, f a ≠ .error (.grammar err)) : x = .error err := by
    rcases Except.bind_eq_error_iff.1 h with fails | ⟨a, -, fails⟩
    · obtain ⟨err', same, fails⟩ := Except.mapError_eq_error_iff.1 fails
      cases same
      exact fails
    · exact (other a fails).elim
  have built {α : Type} (x : Except BuildError α) :
      x.mapError ParseError.build ≠ .error (.grammar err) := by
    intro fails
    obtain ⟨err', same, -⟩ := Except.mapError_eq_error_iff.1 fails
    cases same
  cases e with
  | program => exact syntactic h fun items ↦ built _
  | signatures => exact syntactic h fun items ↦ built _
  | expression =>
    refine syntactic h fun items fails ↦ ?_
    split at fails <;> cases fails

/-- A syntax error is a point between two characters of the text.  Its line and column, from one,
are those of its offset, however line ends are counted; its message names what could have stood
there, which is something; and the text in front of it is the beginning of one that is accepted. -/
theorem Entry.viable_of_refuses (h : e.Refuses text err) :
    let error := ParseError.grammar err
    error.span = .point err.place ∧ err.place.Accurate text ∧
      (error.line, error.column) = ((lineColumn text err.place.offset).1 + 1,
        (lineColumn text err.place.offset).2 + 1) ∧
      err.expected ≠ [] ∧ (∀ c ∈ err.expected, PartOf c.describe error.message) ∧
      ∃ front back more : String, text = front ++ back ∧
        front.utf8ByteSize = err.place.offset ∧
        countLines 1 1 front.toList = (error.line, error.column) ∧
        (∃ source, e.Admits source ∧ Snug (lexemesOf source) (front ++ more).toList) ∧
        ∃ items, Grammar.read e (front ++ more) = .ok items := by
  intro error
  obtain ⟨expected, front, back, whole, ⟨more, source, admits, snug⟩, place⟩ :=
    viable_of_read_error h.read
  have accurate : err.place.Accurate text := Position.In.accurate ⟨front, back, whole, place⟩
  have bytes := Position.offset_advanceAll .origin front
  have snug : Snug (lexemesOf source) (String.ofList front ++ String.ofList more).toList := by
    simpa using snug
  obtain ⟨items, reads, -⟩ := exists_read_of_admits admits snug
  refine ⟨rfl, accurate, ?_, expected, fun c hc ↦ SyntaxError.partOf_message hc,
    String.ofList front, String.ofList back, String.ofList more, ?_, ?_, ?_,
    ⟨source, admits, snug⟩, items, reads⟩
  · rw [← accurate.lineColumn]
    rfl
  · rw [← String.ofList_append, ← whole, String.ofList_toList]
  · rw [place, bytes]
    exact (Nat.zero_add _).symm
  · have lines : countLines 1 1 front = _ := countLines_eq front .origin rfl rfl
    rw [← place] at lines
    rw [String.toList_ofList]
    exact lines

/-- Behind a sign, a line end of two characters and a carriage return that ends no line. -/
theorem Entry.viable_of_refuses_of_line_ends :
    let text := "a ×\r\n\r é"
    let error := ParseError.grammar ⟨⟨8, 1, 2⟩, [.name]⟩
    Program.parse text = .error error ∧ (error.line, error.column) = (2, 3) ∧
      lineColumn text 8 = (1, 2) ∧ PartOf "name" error.message ∧
      ∃ front back more : String, text = front ++ back ∧ front.utf8ByteSize = 8 ∧
        ∃ items, Grammar.read .program (front ++ more) = .ok items := by
  intro text error
  have refuses : Entry.program.Refuses text ⟨⟨8, 1, 2⟩, [.name]⟩ := by
    show Program.parse text = _
    decide +kernel
  obtain ⟨-, accurate, -, -, names, front, back, more, whole, bytes, -, -, accepted⟩ :=
    Entry.viable_of_refuses refuses
  exact ⟨refuses, rfl, accurate.lineColumn.symm, names .name (List.mem_singleton.2 rfl), front,
    back, more, whole, bytes, accepted⟩

end Grammar

end Taskflow
