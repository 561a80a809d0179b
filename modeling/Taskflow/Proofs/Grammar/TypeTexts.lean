import Taskflow.Proofs.Grammar.Entries

/-!
# Types that are parsed on their own

A type is parsed behind `Ty.lead`, as the type of a signature, and the text may go on with further
signatures: the type of the last one is returned (`Ty.LastDeclared`).  Where the text declares
nothing itself it is a type of the grammar and nothing else (`Ty.parse_iff_lastDeclared`).
-/

namespace Taskflow

namespace Grammar

/-! ## Behind the lead -/

/-- A type begins with a word or a parenthesis. -/
theorem TyPhrase.exists_first {l : TyLevel} (t : TyPhrase l) :
    ∃ first rest, t.lexemes = first :: rest ∧ first ≠ .openBracket := by
  induction t with
  | word => exact ⟨_, _, rfl, nofun⟩
  | applied => exact ⟨_, _, rfl, nofun⟩
  | unit => exact ⟨_, _, rfl, nofun⟩
  | parens => exact ⟨_, _, rfl, nofun⟩
  | atom _ ih | power _ ih | last _ ih => exact ih
  | times _ _ ih _ | arrow _ _ ih _ | more _ _ ih _ =>
    obtain ⟨first, rest, shape, other⟩ := ih
    exact ⟨first, _, by rw [lexemes, shape]; rfl, other⟩

theorem TyPhrase.declares_notMem {l : TyLevel} (t : TyPhrase l) : .declares ∉ t.lexemes := by
  induction t <;> simp_all [lexemes]

/-- The tokens behind the lead touch what they touch in the text alone, unless the text begins with
a bracket. -/
theorem touches_iff_of_first {ts : List Token} {first : Lexeme} {rest : List Lexeme}
    (shape : ts.map Token.lexeme = first :: rest) (other : first ≠ .openBracket)
    {p q : Position} : Touches p ts ↔ Touches q ts := by
  obtain ⟨t, ts, rfl, rfl, -⟩ := List.map_eq_cons_iff.1 shape
  exact ⟨fun h ↦ ⟨(other · |>.elim), h.2⟩, fun h ↦ ⟨(other · |>.elim), h.2⟩⟩

theorem scan_lead (text : String) : scan .origin .between (Ty.lead ++ text).toList =
    ⟨.word "_", ⟨0, 0, 0⟩, ⟨1, 0, 1⟩⟩ :: ⟨.declares, ⟨2, 0, 2⟩, ⟨4, 0, 4⟩⟩ ::
      scan ⟨5, 0, 5⟩ .between text.toList := by
  rw [String.toList_append]
  rfl

/-- A type behind the lead is what the type is, with a name and `::` in front. -/
theorem snug_lead_iff {l : TyLevel} (ty : TyPhrase l) (rest : List Lexeme) (text : String) :
    Snug (.word "_" :: .declares :: (ty.lexemes ++ rest)) (Ty.lead ++ text).toList ↔
      Snug (ty.lexemes ++ rest) text.toList := by
  obtain ⟨first, others, shape, other⟩ := ty.exists_first
  have shape : ty.lexemes ++ rest = first :: (others ++ rest) := by rw [shape, List.cons_append]
  rw [snug_iff .origin, snug_iff ⟨5, 0, 5⟩, scan_lead]
  constructor
  · rintro ⟨lexemes, known, -, -, touches⟩
    have lexemes : (scan ⟨5, 0, 5⟩ .between text.toList).map Token.lexeme = ty.lexemes ++ rest := by
      simpa using lexemes
    have known := (List.forall_mem_cons.1 (List.forall_mem_cons.1 known).2).2
    exact ⟨lexemes, known, (touches_iff_of_first (lexemes.trans shape) other).1 touches⟩
  · rintro ⟨lexemes, known, touches⟩
    refine ⟨by rw [List.map_cons, List.map_cons, lexemes], ?_, nofun, nofun, ?_⟩
    · exact List.forall_mem_cons.2 ⟨by decide, List.forall_mem_cons.2 ⟨by decide, known⟩⟩
    · exact (touches_iff_of_first (lexemes.trans shape) other).1 touches

/-- The signature that the lead begins is the first one of the source. -/
theorem exists_signature_of_lead {source : List Sentence} {text : String}
    (admits : Entry.signatures.Admits source)
    (snug : Snug (lexemesOf source) (Ty.lead ++ text).toList) :
    ∃ name isName ty span more, source = .signature name isName ty span :: more ∧
      name.text = "_" ∧ Snug (ty.lexemes ++ lexemesOf more) text.toList := by
  have lexemes := snug.laid.map_lexeme_scan .origin
  rw [scan_lead] at lexemes
  cases source with
  | nil => cases lexemes
  | cons s more =>
    cases s with
    | signature name isName ty span =>
      obtain ⟨first, -⟩ := List.cons.inj lexemes
      have lead : "_" = name.text := Lexeme.word.inj first
      refine ⟨name, isName, ty, span, more, rfl, lead.symm, (snug_lead_iff ty _ text).1 ?_⟩
      rw [lead]
      exact snug
    | functor | expression => exact (admits _ List.mem_cons_self).elim

/-! ## The last signature -/

/-- What a clause says about the type of a task. -/
def Clause.declared? : Clause → Option (String × Ty)
  | .signature name ty => some (name, ty)
  | _ => none

theorem Item.declared?_clause (i : Item) : i.clause.declared? = i.declared? := by
  cases i <;> rfl

/-- Items that say the same declare the same. -/
theorem filterMap_declared?_eq {items items' : List Item}
    (same : items.map Item.clause = items'.map Item.clause) :
    items.filterMap Item.declared? = items'.filterMap Item.declared? := by
  have through (items : List Item) :
      items.filterMap Item.declared? = (items.map Item.clause).filterMap Clause.declared? := by
    rw [List.filterMap_map]
    exact List.filterMap_congr fun i _ ↦ i.declared?_clause.symm
  rw [through, through, same]

theorem getLast?_snd_cons (d : String × Ty) (ds : List (String × Ty)) :
    (d :: ds).getLast?.map (·.2) = some ((ds.getLast?.map (·.2)).getD d.2) := by
  rw [List.getLast?_cons]
  cases ds.getLast? <;> rfl

end Grammar

open Grammar

namespace Ty

variable {text : String} {t : Ty}

/-- A type that is parsed is the last one that the signatures of the text behind the lead
declare. -/
theorem parse_iff_read : Ty.parse text = .ok t ↔
    ∃ items, read .signatures (lead ++ text) = .ok items ∧
      ((items.filterMap Item.declared?).map (·.1)).Nodup ∧
      (items.filterMap Item.declared?).getLast?.map (·.2) = some t := by
  have last (items : List Item) : (items.filterMap Item.declared?).getLast?.map (·.2) =
      ((items.filterMap Item.signature?).map (·.2)).getLast?.map Signature.ty := by
    rw [← Item.map_signature?_eq]
    simp [List.getLast?_map, Function.comp_def]
  constructor
  · intro h
    obtain ⟨signatures, parsed, found⟩ := Except.bind_eq_ok_iff.1 h
    obtain ⟨items, reads, builds⟩ := Except.bind_eq_ok_iff.1 parsed
    obtain ⟨distinct, rfl⟩ := buildSignatures_spec (Except.mapError_eq_ok_iff.1 builds)
    refine ⟨items, Except.mapError_eq_ok_iff.1 reads, ?_, ?_⟩
    · rwa [Item.map_fst_declared?]
    · rw [last]
      split at found
      next s present =>
        cases found
        rw [present, Option.map_some]
      next => cases found
  · rintro ⟨items, reads, distinct, found⟩
    rw [Item.map_fst_declared?] at distinct
    rw [last] at found
    obtain ⟨s, present, rfl⟩ := Option.map_eq_some_iff.1 found
    have collects : Signature.parseAll (lead ++ text) =
        .ok ((items.filterMap Item.signature?).map (·.2)) :=
      Except.bind_eq_ok_iff.2 ⟨items, Except.mapError_eq_ok_iff.2 reads,
        Except.mapError_eq_ok_iff.2 (buildSignatures_eq_ok distinct)⟩
    refine Except.bind_eq_ok_iff.2 ⟨_, collects, ?_⟩
    simp only [present]

/-- Whether a text is a type and any number of signatures behind it, with names that differ from
each other and from that of the lead, and `t` is the last type of them all. -/
def LastDeclared (text : String) (t : Ty) : Prop :=
  ∃ (ty : TyPhrase .type) (more : List Sentence), Entry.signatures.Admits more ∧
    Snug (ty.lexemes ++ lexemesOf more) text.toList ∧
    ("_" :: (more.filterMap (·.item.declared?)).map (·.1)).Nodup ∧
    ((more.filterMap (·.item.declared?)).getLast?.map (·.2)).getD ty.value = t

theorem lastDeclared_of_parse (h : Ty.parse text = .ok t) : LastDeclared text t := by
  obtain ⟨items, reads, distinct, found⟩ := parse_iff_read.1 h
  obtain ⟨source, admits, rfl, snug⟩ := exists_admitted_of_read reads
  obtain ⟨name, isName, ty, span, more, rfl, lead, snug⟩ := exists_signature_of_lead admits snug
  have declares : ((Sentence.signature name isName ty span :: more).map Sentence.item).filterMap
      Item.declared? = ("_", ty.value) :: more.filterMap (·.item.declared?) := by
    rw [← lead, List.map_cons, List.filterMap_cons, List.filterMap_map]
    rfl
  rw [declares] at distinct found
  refine ⟨ty, more, (List.forall_mem_cons.1 admits).2, snug, distinct, ?_⟩
  rw [getLast?_snd_cons] at found
  exact Option.some.inj found

theorem parse_of_lastDeclared (h : LastDeclared text t) : Ty.parse text = .ok t := by
  obtain ⟨ty, more, admits, snug, distinct, found⟩ := h
  have isName : IsName "_" := by decide
  let source := Sentence.signature ⟨"_", .nowhere⟩ isName ty .nowhere :: more
  have whole : Snug (lexemesOf source) (lead ++ text).toList :=
    (snug_lead_iff ty _ text).2 snug
  have signatures : Entry.signatures.Admits source := List.forall_mem_cons.2 ⟨trivial, admits⟩
  obtain ⟨items, reads, same⟩ := exists_read_of_admits signatures whole
  have same : items.map Item.clause = (source.map Sentence.item).map Item.clause := by
    rw [same, List.map_map]
    rfl
  have declares : items.filterMap Item.declared? =
      ("_", ty.value) :: more.filterMap (·.item.declared?) := by
    rw [filterMap_declared?_eq same, List.map_cons, List.filterMap_cons, List.filterMap_map]
    rfl
  refine parse_iff_read.2 ⟨items, reads, ?_, ?_⟩
  · rw [declares]
    exact distinct
  · rw [declares, getLast?_snd_cons]
    exact congrArg some found

theorem lastDeclared_of_phrase (ty : TyPhrase .type) (snug : Snug ty.lexemes text.toList) :
    LastDeclared text ty.value := by
  refine ⟨ty, [], List.forall_mem_nil _, ?_, List.nodup_singleton _, rfl⟩
  rwa [lexemesOf, List.flatMap_nil, List.append_nil]

/-- Without further signatures the text is a type of the grammar. -/
theorem lastDeclared_iff_of_no_declares
    (alone : ∀ tok ∈ (tokenize text).list, tok.lexeme ≠ .declares) :
    LastDeclared text t ↔ ∃ ty : TyPhrase .type, Snug ty.lexemes text.toList ∧ ty.value = t := by
  constructor
  · rintro ⟨ty, more, admits, snug, -, found⟩
    cases more with
    | nil =>
      rw [lexemesOf, List.flatMap_nil, List.append_nil] at snug
      exact ⟨ty, snug, found⟩
    | cons s more =>
      cases s with
      | signature name isName ty' span =>
        have mem : .declares ∈ (tokenize text).list.map Token.lexeme := by
          rw [show (tokenize text).list.map Token.lexeme = _ from snug.laid.map_lexeme_scan .origin]
          simp [lexemesOf, Sentence.lexemes]
        obtain ⟨tok, hTok, lexeme⟩ := List.mem_map.1 mem
        exact (alone tok hTok lexeme).elim
      | functor | expression => exact (admits _ List.mem_cons_self).elim
  · rintro ⟨ty, snug, rfl⟩
    exact lastDeclared_of_phrase ty snug

/-- A text is parsed as the type that is declared last in it.  A text that declares nothing itself
is parsed as the type that it is, and refused if it is none. -/
theorem parse_iff_lastDeclared (text : String) (t : Ty) :
    (Ty.parse text = .ok t ↔ LastDeclared text t) ∧
      ((∀ tok ∈ (tokenize text).list, tok.lexeme ≠ .declares) →
        (Ty.parse text = .ok t ↔
          ∃ ty : TyPhrase .type, Snug ty.lexemes text.toList ∧ ty.value = t)) := by
  have last : Ty.parse text = .ok t ↔ LastDeclared text t :=
    ⟨lastDeclared_of_parse, parse_of_lastDeclared⟩
  exact ⟨last, fun alone ↦ last.trans (lastDeclared_iff_of_no_declares alone)⟩

/-- A type with a comment behind it declares nothing. -/
theorem parse_iff_lastDeclared_of_comment :
    (∀ tok ∈ (tokenize "(A) # b :: B").list, tok.lexeme ≠ .declares) ∧
      ∃ ty : TyPhrase .type, Snug ty.lexemes "(A) # b :: B".toList ∧ ty.value = .mono "A" := by
  have alone : ∀ tok ∈ (tokenize "(A) # b :: B").list, tok.lexeme ≠ .declares := by decide
  have parsed : Ty.parse "(A) # b :: B" = .ok (.mono "A") := by decide +kernel
  exact ⟨alone, ((parse_iff_lastDeclared _ _).2 alone).1 parsed⟩

/-- A signature behind a type is part of no type, but its type is returned. -/
theorem parse_second_signature :
    Ty.parse "A b :: B" = .ok (.mono "B") ∧
      ¬∃ ty : TyPhrase .type, Snug ty.lexemes "A b :: B".toList := by
  refine ⟨by decide +kernel, fun ⟨ty, snug⟩ ↦ ty.declares_notMem ?_⟩
  rw [← snug.laid.map_lexeme_scan .origin]
  decide

end Ty

end Taskflow
