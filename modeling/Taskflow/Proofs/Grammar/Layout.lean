import Taskflow.Proofs.Grammar.Reading

/-!
# Layout

How a sequence of lexemes can be laid out as a text.  Between two of them stands a `Gap`, made of
blanks, line ends and comments; behind the last one a comment need not come to its end.  A gap may
be empty except between two words, which would become one.

`Laid ls cs` says all this of the lexemes `ls` and the text `cs`, and the scanner gives exactly the
lexemes back (`Laid.map_lexeme_scan`).
-/

namespace Taskflow.Grammar

/-! ## Gaps -/

/-- What may stand in front of a token: blanks, and comments that have come to their end. -/
inductive Gap : List Char → Prop
  | nil : Gap []
  | blank {c cs} : isBlank c = true → Gap cs → Gap (c :: cs)
  | comment {body c cs} : (∀ b ∈ body, isLineEnd b = false) → isLineEnd c = true → Gap cs →
      Gap ('#' :: (body ++ c :: cs))

/-- What may stand behind the last token: the text may end within a comment. -/
inductive Trailing : List Char → Prop
  | gap {cs} : Gap cs → Trailing cs
  | comment {cs body} : Gap cs → (∀ b ∈ body, isLineEnd b = false) → Trailing (cs ++ '#' :: body)

theorem Gap.append {gap gap' : List Char} (h : Gap gap) (h' : Gap gap') : Gap (gap ++ gap') := by
  induction h with
  | nil => exact h'
  | blank isBlank _ ih => exact .blank isBlank ih
  | comment inside lineEnd _ ih =>
    rw [List.cons_append, List.append_assoc]
    exact .comment inside lineEnd ih

theorem Trailing.gap_append {gap cs : List Char} (h : Gap gap) (h' : Trailing cs) :
    Trailing (gap ++ cs) := by
  cases h' with
  | gap gap' => exact .gap (h.append gap')
  | comment gap' inside =>
    rw [← List.append_assoc]
    exact .comment (h.append gap') inside

/-- A comment goes on to the first character that ends a line. -/
theorem scan_comment {body : List Char} (inside : ∀ b ∈ body, isLineEnd b = false)
    (p : Position) (cs : List Char) :
    scan p .comment (body ++ cs) = scan (p.advanceAll body) .comment cs := by
  induction body generalizing p with
  | nil => rfl
  | cons b body ih =>
    obtain ⟨notEnd, inside⟩ := List.forall_mem_cons.1 inside
    rw [List.cons_append, scan, Mode.feed, notEnd, if_neg Bool.false_ne_true]
    exact ih inside (p.advance b)

/-- A gap yields no tokens. -/
theorem Gap.scan_append {gap : List Char} (h : Gap gap) (p : Position) (cs : List Char) :
    scan p .between (gap ++ cs) = scan (p.advanceAll gap) .between cs := by
  induction h generalizing p with
  | nil => rfl
  | blank isBlank _ ih =>
    rw [List.cons_append, scan, Mode.feed, Mode.open', if_pos isBlank]
    exact ih _
  | @comment body c rest inside lineEnd _ ih =>
    have opens : scan p .between ('#' :: (body ++ c :: (rest ++ cs))) =
        scan (p.advance '#') .comment (body ++ c :: (rest ++ cs)) := rfl
    rw [List.cons_append, List.append_assoc, List.cons_append, opens, scan_comment inside, scan,
      Mode.feed, if_pos lineEnd, Position.advanceAll_cons, Position.advanceAll_append]
    exact ih _

/-- Nothing behind the last token yields a token. -/
theorem Trailing.scan_eq_nil {cs : List Char} (h : Trailing cs) (p : Position) :
    scan p .between cs = [] := by
  cases h with
  | gap gap =>
    rw [← List.append_nil cs, gap.scan_append]
    rfl
  | @comment cs body gap inside =>
    have opens (q : Position) :
        scan q .between ('#' :: body) = scan (q.advance '#') .comment body :=
      rfl
    rw [gap.scan_append, opens, ← List.append_nil body, scan_comment inside]
    rfl

/-! ## Lexemes -/

/-- How a lexeme is written. -/
inductive Lexeme.Written : Lexeme → List Char → Prop
  | word {text} : IsWord text → Written (.word text) text.toList
  | symbol {c l} : single? c = some l → Written l [c]
  | declares : Written .declares [':', ':']
  | arrow : Written .arrow ['-', '>']

/-- Whether a text consists of the given lexemes, with layout between them. -/
inductive Laid : List Lexeme → List Char → Prop
  | nil {cs} : Trailing cs → Laid [] cs
  | cons {l ls gap written cs} : Gap gap → l.Written written → (∀ text, l = .word text → Apart cs) →
      Laid ls cs → Laid (l :: ls) (gap ++ (written ++ cs))

namespace Laid

variable {ls : List Lexeme} {cs : List Char}

/-- A text may be moved behind a gap. -/
theorem gap {gap : List Char} (h : Gap gap) (laid : Laid ls cs) : Laid ls (gap ++ cs) := by
  cases laid with
  | nil trailing => exact .nil (trailing.gap_append h)
  | cons gap' written apart rest =>
    rw [← List.append_assoc]
    exact .cons (h.append gap') written apart rest

theorem blank {c : Char} (h : isBlank c = true) (laid : Laid ls cs) : Laid ls (c :: cs) :=
  laid.gap (.blank h .nil)

theorem word {text : String} (h : IsWord text) (apart : Apart cs) (laid : Laid ls cs) :
    Laid (.word text :: ls) (text.toList ++ cs) :=
  .cons .nil (.word h) (fun _ _ ↦ apart) laid

theorem symbol {c : Char} {l : Lexeme} (h : single? c = some l) (laid : Laid ls cs) :
    Laid (l :: ls) (c :: cs) := by
  refine .cons .nil (.symbol h) ?_ laid
  rintro text rfl
  exact (Mode.single?_ne_word c text h).elim

end Laid

/-- A written lexeme yields its token. -/
theorem Lexeme.Written.scan_append {l : Lexeme} {written cs : List Char} (h : l.Written written)
    (apart : ∀ text, l = .word text → Apart cs) (p : Position) :
    scan p .between (written ++ cs) =
      ⟨l, p, p.advanceAll written⟩ :: scan (p.advanceAll written) .between cs := by
  cases h with
  | word isWord => exact scan_of_isWord isWord (apart _ rfl) p
  | symbol single =>
    rw [List.singleton_append, scan, Mode.feed, open'_of_single single]
    rfl
  | declares => rfl
  | arrow => rfl

/-- The scanner gives back the lexemes of a text, whatever its layout. -/
theorem Laid.map_lexeme_scan {ls : List Lexeme} {cs : List Char} (h : Laid ls cs) (p : Position) :
    (scan p .between cs).map Token.lexeme = ls := by
  induction h generalizing p with
  | nil trailing => rw [trailing.scan_eq_nil, List.map_nil]
  | cons gap written apart _ ih =>
    rw [gap.scan_append, written.scan_append apart, List.map_cons, ih]

end Taskflow.Grammar
