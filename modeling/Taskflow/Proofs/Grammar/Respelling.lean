import Taskflow.Proofs.Grammar.Acceptance
import Taskflow.Proofs.Grammar.Places

/-!
# Spellings of programs

A source can be written down in many ways: with any layout, with either sign of each operation and
with or without the keyword in front of a functor.  However that is done, it is parsed as the same
program up to places, or refused for the same reason (`parse_respelled`).
-/

namespace Taskflow

open Grammar

/-- A text that the grammar accepts is written for some source.  Every text that is written for a
source which differs from it in the signs of compositions, in the keywords of functors and in places
alone, in any layout and with either symbol for products and arrows, is accepted as well.  It is
parsed as the same program up to places, with the same ids, or refused for the same reason up to
places. -/
theorem Program.parse_respelled {text : String} {items : List Item}
    (accepted : read .program text = .ok items) :
    (∃ source, source.map Sentence.item = items ∧ Snug (lexemesOf source) text.toList) ∧
    ∀ source source' : List Sentence, Snug (lexemesOf source) text.toList →
      source'.map Sentence.plain = source.map Sentence.plain →
      ∀ text' : String, Snug (lexemesOf source') text'.toList →
        (∃ items', read .program text' = .ok items') ∧
        (∀ p, Program.parse text = .ok p →
          ∃ p', Program.parse text' = .ok p' ∧ p'.unplaced = p.unplaced) ∧
        ∀ e, Program.parse text = .error e → ∃ b b', e = .build b ∧
          Program.parse text' = .error (.build b') ∧ b'.unplaced = b.unplaced := by
  refine ⟨exists_source_of_read accepted, fun source source' snug plain text' snug' ↦ ?_⟩
  obtain ⟨items₁, reads, meaning⟩ := exists_read_of_snug snug
  obtain rfl := Except.ok.inj (accepted.symm.trans reads)
  obtain ⟨items', reads', meaning'⟩ := exists_read_of_snug snug'
  -- what a source says is what it says when it is plain
  have clauses (source : List Sentence) : source.map (·.item.clause) =
      (source.map Sentence.plain).map (·.item.clause) := by
    simp [Function.comp_def]
  have same : items'.map Item.clause = items.map Item.clause := by
    rw [meaning', meaning, clauses, clauses source, plain]
  have built := build_unplaced_of_clause (spanOf text') (spanOf text) same
  have parse : Program.parse text = (build items (spanOf text)).mapError .build := by
    rw [Program.parse, accepted]
    rfl
  have parse' : Program.parse text' = (build items' (spanOf text')).mapError .build := by
    rw [Program.parse, reads']
    rfl
  rw [parse, parse']
  refine ⟨⟨items', reads'⟩, ?_⟩
  cases first : build items (spanOf text) with
  | ok p =>
    cases second : build items' (spanOf text') with
    | error => rw [first, second] at built; cases built
    | ok p' =>
      rw [first, second] at built
      refine ⟨?_, nofun⟩
      rintro _ ⟨⟩
      exact ⟨p', rfl, Except.ok.inj built⟩
  | error b =>
    cases second : build items' (spanOf text') with
    | ok => rw [first, second] at built; cases built
    | error b' =>
      rw [first, second] at built
      refine ⟨nofun, ?_⟩
      rintro _ ⟨⟩
      exact ⟨b, b', rfl, rfl, Except.error.inj built⟩

/-- Other signs and symbols, a keyword that is left out and one that is put in, and a comment in
place of a line end: first a program, then a functor that is declared twice. -/
theorem Program.parse_respelled_of_layout :
    (∃ p p', Program.parse "b :: A -> L[A * B]\nfunctor f = (a ∘ b) × c\ng = f\ng # end" = .ok p ∧
      Program.parse "b::A→L[ A×B ]f=(a o b)*c#\nfunctor g = f g" = .ok p' ∧
      p'.unplaced = p.unplaced) ∧
    ∃ b b', Program.parse "f = a ∘ b\nf = c" = .error (.build b) ∧
      Program.parse "functor f=a\to b f=c" = .error (.build b') ∧ b'.unplaced = b.unplaced := by
  let name (text : String) (isName : IsName text) : Phrase .term := .name ⟨text, .nowhere⟩ isName
  let composed (sign : Sign) : Phrase .expression :=
    .after (.factor (.term (name "a" (by decide)))) sign (.term (name "b" (by decide)))
  constructor
  · let ty : TyPhrase .type := .arrow (.atom (.word "A" (by decide)))
      (.power (.atom (.applied "L" (by decide)
        (.last (.power (.times (.atom (.word "A" (by decide))) (.word "B" (by decide))))))))
    let source (sign : Sign) (f g : Bool) : List Sentence :=
      [.signature ⟨"b", .nowhere⟩ (by decide) ty .nowhere,
        .functor f ⟨"f", .nowhere⟩ (by decide)
          (.factor (.times (.term (.parens (composed sign))) (name "c" (by decide)))) .nowhere,
        .functor g ⟨"g", .nowhere⟩ (by decide) (.factor (.term (name "f" (by decide)))) .nowhere,
        .expression (.factor (.term (name "g" (by decide)))) .nowhere]
    have parsed := Except.eq_ok_get (x := Program.parse
      "b :: A -> L[A * B]\nfunctor f = (a ∘ b) × c\ng = f\ng # end") (by decide)
    have accepted := Except.eq_ok_get (x := read .program
      "b :: A -> L[A * B]\nfunctor f = (a ∘ b) × c\ng = f\ng # end") (by decide)
    obtain ⟨-, same, -⟩ := (Program.parse_respelled accepted).2 (source .circle true false)
      (source .letter false true) (by decide) rfl "b::A→L[ A×B ]f=(a o b)*c#\nfunctor g = f g"
      (by decide)
    obtain ⟨p', parsed', unplaced⟩ := same _ parsed
    exact ⟨_, p', parsed, parsed', unplaced⟩
  · let source (sign : Sign) (keyword : Bool) : List Sentence :=
      [.functor keyword ⟨"f", .nowhere⟩ (by decide) (composed sign) .nowhere,
        .functor false ⟨"f", .nowhere⟩ (by decide) (.factor (.term (name "c" (by decide))))
          .nowhere]
    have accepted := Except.eq_ok_get (x := read .program "f = a ∘ b\nf = c") (by decide)
    obtain ⟨-, -, same⟩ := (Program.parse_respelled accepted).2 (source .circle false)
      (source .letter true) (by decide) rfl "functor f=a\to b f=c" (by decide)
    have refused : Program.parse "f = a ∘ b\nf = c" = .error (.build (.duplicateFunctor
        ⟨"f", ⟨12, 1, 0⟩, ⟨13, 1, 1⟩⟩ ⟨⟨0, 0, 0⟩, ⟨1, 0, 1⟩⟩)) := by decide
    obtain ⟨b, b', build, refused', unplaced⟩ := same _ refused
    exact ⟨b, b', build ▸ refused, refused', unplaced⟩

end Taskflow
