import Taskflow.Proofs.Grammar.Unambiguous
import Taskflow.Proofs.Grammar.Under

/-!
# Texts one after the other

Items need no end mark and line ends mean nothing, and still a text behind another one is read as if
it stood alone: no item of the first text goes on into the second one.  This holds of the items that
the reader yields, to the place (`read_append`), and of how the texts are derived: the derivations
of both together are those of the first one followed by those of the second one, and no others.
-/

namespace Taskflow.Grammar

/-- Where both of two texts are read, the derivations of one behind the other are the derivations of
the first followed by those of the second. -/
theorem snug_append_iff {s t : String} {items : List Item}
    (h : read .program (s ++ "\n" ++ t) = .ok items) {ss st : List Sentence}
    (hs : Snug (lexemesOf ss) s.toList) (ht : Snug (lexemesOf st) t.toList)
    (source : List Sentence) : Snug (lexemesOf source) (s ++ "\n" ++ t).toList ↔
      source.map Sentence.unplaced = (ss ++ st).map Sentence.unplaced := by
  -- the whole text has a derivation, and its lexemes are those of the parts
  obtain ⟨whole, -, snug⟩ := exists_source_of_read h
  have lexemes : lexemesOf whole = lexemesOf (ss ++ st) := by
    have parts : (tokenize (s ++ "\n" ++ t)).list.map Token.lexeme =
        lexemesOf ss ++ lexemesOf st := by
      rw [tokenize_append, List.map_append, List.map_map]
      exact congrArg₂ _ (hs.laid.map_lexeme_scan .origin) (ht.laid.map_lexeme_scan .origin)
    exact (snug.laid.map_lexeme_scan .origin).symm.trans (parts.trans List.flatMap_append.symm)
  rw [lexemes] at snug
  constructor
  · intro snug'
    exact unplaced_eq_of_lexemesOf_eq
      ((snug'.laid.map_lexeme_scan .origin).symm.trans (snug.laid.map_lexeme_scan .origin))
  · intro same
    rwa [← lexemesOf_unplaced, same, lexemesOf_unplaced]

/-- Two texts that are read can be put one after the other, from a new line on.  The items of both
together are those of the first one, of which only the end of the last one can change, and those of
the second one, further down.  As to how the items are written, the whole has the derivations that
the parts have. -/
theorem read_concatenated {s t : String} {items items' : List Item}
    (hs : read .program s = .ok items) (ht : read .program t = .ok items') :
    (∃ stop, read .program (s ++ "\n" ++ t) =
      .ok (lastEndingAt stop items ++ items'.map (·.under (underText s)))) ∧
    ∃ ss st, ss.map Sentence.item = items ∧ Snug (lexemesOf ss) s.toList ∧
      st.map Sentence.item = items' ∧ Snug (lexemesOf st) t.toList ∧
      ∀ source, Snug (lexemesOf source) (s ++ "\n" ++ t).toList ↔
        source.map Sentence.unplaced = (ss ++ st).map Sentence.unplaced := by
  obtain ⟨stop, whole⟩ := read_append hs ht
  obtain ⟨ss, made, snug⟩ := exists_source_of_read hs
  obtain ⟨st, made', snug'⟩ := exists_source_of_read ht
  exact ⟨⟨stop, whole⟩, ss, st, made, snug, made', snug', snug_append_iff whole snug snug'⟩

/-- A comment, the letter that also composes, and a parenthesis where the first text ends and the
second one begins. -/
theorem read_concatenated_of_letter :
    let s := "b :: c\nf = a o b # c"
    let t := "(o1)×\nf g :: o"
    ∃ items items', read .program s = .ok items ∧ read .program t = .ok items' ∧
      (items.length, items'.length) = (2, 2) ∧
      ∃ stop, read .program (s ++ "\n" ++ t) =
        .ok (lastEndingAt stop items ++ items'.map (·.under (underText s))) := by
  intro s t
  have hs := Except.eq_ok_get (x := read .program s) (by decide)
  have ht := Except.eq_ok_get (x := read .program t) (by decide)
  exact ⟨_, _, hs, ht, by decide +kernel, (read_concatenated hs ht).1⟩

end Taskflow.Grammar
