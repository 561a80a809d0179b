import Taskflow.Proofs.Grammar.Layout

/-!
# Which text a scanner has cut

The scanner loses nothing but layout: a text in which no character is left over consists of the
lexemes of its tokens, with gaps between them (`snug_of_scan`).

One gap matters to the grammar, the one in front of an opening bracket, which has to be empty.  Of
tokens this is said by places (`Touches`), of texts by `Snug`, and the two agree.
-/

namespace Taskflow.Grammar

/-- Whether a text consists of the given lexemes, with layout between them but none in front of an
opening bracket. -/
inductive Snug : List Lexeme → List Char → Prop
  | nil {cs} : Trailing cs → Snug [] cs
  | cons {l ls gap written cs} : Gap gap → (l = .openBracket → gap = []) → l.Written written →
      (∀ text, l = .word text → Apart cs) → Snug ls cs → Snug (l :: ls) (gap ++ (written ++ cs))

/-- Whether each opening bracket among tokens begins where the token before it ends; the token
before the first one ends at `p`. -/
def Touches (p : Position) : List Token → Prop
  | [] => True
  | t :: ts => (t.lexeme = .openBracket → t.start = p) ∧ Touches t.stop ts

/-- Where the last of some tokens ends; if there is none, the token before them ends at `p`. -/
def lastStop (p : Position) : List Token → Position
  | [] => p
  | t :: ts => lastStop t.stop ts

@[simp] theorem lastStop_concat (p : Position) (ts : List Token) (t : Token) :
    lastStop p (ts ++ [t]) = t.stop := by
  induction ts generalizing p with
  | nil => rfl
  | cons t' ts ih => exact ih t'.stop

theorem touches_append {p : Position} {ts ts' : List Token} :
    Touches p (ts ++ ts') ↔ Touches p ts ∧ Touches (lastStop p ts) ts' := by
  induction ts generalizing p with
  | nil => simp [Touches, lastStop]
  | cons t ts ih =>
    rw [List.cons_append, Touches, Touches, ih, lastStop]
    exact and_assoc.symm

/-! ## From texts to tokens -/

theorem Snug.laid {ls : List Lexeme} {cs : List Char} (h : Snug ls cs) : Laid ls cs := by
  induction h with
  | nil trailing => exact .nil trailing
  | cons gap _ written apart _ ih => exact .cons gap written apart ih

/-- Where no layout stands in front of a bracket, it touches the token before it. -/
theorem Snug.touches {ls : List Lexeme} {cs : List Char} (h : Snug ls cs) (p : Position) :
    Touches p (scan p .between cs) := by
  induction h generalizing p with
  | nil trailing =>
    rw [trailing.scan_eq_nil]
    trivial
  | cons gap tight written apart _ ih =>
    rw [gap.scan_append, written.scan_append apart]
    refine ⟨fun bracket ↦ ?_, ih _⟩
    rw [tight bracket]
    rfl

/-! ## From tokens to texts -/

/-- A character that belongs to no other lexeme. -/
def Lexeme.IsStray (l : Lexeme) : Prop := ∃ c, l = .stray c

instance (l : Lexeme) : Decidable l.IsStray :=
  match l with
  | .stray c => .isTrue ⟨c, rfl⟩
  | .word _ | .declares | .equals | .circle | .cross | .arrow | .openParen | .closeParen
  | .openBracket | .closeBracket | .comma => .isFalse nofun

instance Touches.decidable (p : Position) (ts : List Token) : Decidable (Touches p ts) :=
  match ts with
  | [] => .isTrue trivial
  | t :: ts =>
    have := Touches.decidable t.stop ts
    inferInstanceAs (Decidable (_ ∧ _))

theorem Lexeme.Written.not_isStray {l : Lexeme} {written : List Char} (h : l.Written written) :
    ¬l.IsStray := by
  rintro ⟨c, rfl⟩
  cases h with
  | symbol single =>
    unfold single? at single
    split at single <;> cases single

/-- The characters with a property that a text begins with. -/
theorem exists_run (f : Char → Bool) (cs : List Char) :
    ∃ run rest, cs = run ++ rest ∧ (∀ c ∈ run, f c = true) ∧
      (rest = [] ∨ ∃ c rest', rest = c :: rest' ∧ f c = false) := by
  induction cs with
  | nil => exact ⟨[], [], rfl, by simp, .inl rfl⟩
  | cons c cs ih =>
    cases holds : f c with
    | true =>
      obtain ⟨run, rest, rfl, all, ends⟩ := ih
      exact ⟨c :: run, rest, rfl, List.forall_mem_cons.2 ⟨holds, all⟩, ends⟩
    | false => exact ⟨[], c :: cs, rfl, by simp, .inr ⟨c, cs, rfl, holds⟩⟩

/-- A text goes on to a character that is no layout, if there is one. -/
theorem exists_gap (cs : List Char) :
    Trailing cs ∨
      ∃ gap c rest, cs = gap ++ c :: rest ∧ Gap gap ∧ isBlank c = false ∧ c ≠ '#' := by
  match cs with
  | [] => exact .inl (.gap .nil)
  | c :: cs =>
    -- layout in front of a text whose layout is known
    have behind {front rest : List Char} (gap : Gap front) (shape : c :: cs = front ++ rest)
        (shorter : rest.length < (c :: cs).length) :
        Trailing (c :: cs) ∨ ∃ gap d rest, c :: cs = gap ++ d :: rest ∧ Gap gap ∧
          isBlank d = false ∧ d ≠ '#' := by
      rw [shape]
      rcases exists_gap rest with trailing | ⟨gap', d, rest', rfl, isGap, notBlank, notComment⟩
      · exact .inl (trailing.gap_append gap)
      · exact .inr ⟨front ++ gap', d, rest', by simp, gap.append isGap, notBlank, notComment⟩
    by_cases blank : isBlank c = true
    · exact behind (.blank blank .nil) rfl (Nat.lt_succ_self _)
    by_cases comment : c = '#'
    · subst comment
      obtain ⟨body, rest, rfl, notEnd, ends⟩ := exists_run (!isLineEnd ·) cs
      have inside : ∀ b ∈ body, isLineEnd b = false := fun b hb ↦ by simpa using notEnd b hb
      rcases ends with rfl | ⟨e, rest', rfl, lineEnd⟩
      · rw [List.append_nil]
        exact .inl (.comment .nil inside)
      · have shape : '#' :: (body ++ e :: rest') = ('#' :: (body ++ e :: [])) ++ rest' := by simp
        refine behind (.comment inside (by simpa using lineEnd) .nil) shape ?_
        simp only [List.length_cons, List.length_append]
        omega
    · exact .inr ⟨[], c, cs, rfl, .nil, by simpa using blank, comment⟩
termination_by cs.length
decreasing_by exact shorter

/-- What is closed by the next character, or by the end of the text, comes next. -/
theorem exists_scan_eq_close {m : Mode} {p : Position} {cs : List Char}
    (ends : ∀ c rest, cs = c :: rest → (m.feed p c).1 = m.close p ++ (Mode.open' p c).1) :
    ∃ ts, scan p m cs = m.close p ++ ts := by
  cases cs with
  | nil => exact ⟨[], (List.append_nil _).symm⟩
  | cons c rest => exact ⟨_, by rw [scan, ends c rest rfl, List.append_assoc]⟩

/-- Where no layout stands, the next token is a character left over, or a lexeme is written. -/
theorem exists_written {c : Char} {cs : List Char} (p : Position) (notBlank : isBlank c = false)
    (notComment : c ≠ '#') :
    (∃ c' stop ts, scan p .between (c :: cs) = ⟨.stray c', p, stop⟩ :: ts) ∨
      ∃ (l : Lexeme) (written rest : List Char), c :: cs = written ++ rest ∧ written ≠ [] ∧
        l.Written written ∧ ∀ text, l = .word text → Apart rest := by
  by_cases letter : isWordChar c = true
  · obtain ⟨run, rest, rfl, letters, ends⟩ := exists_run isWordChar cs
    have isWord : IsWord (String.ofList (c :: run)) :=
      ⟨by simp, by simpa [String.toList_ofList] using ⟨letter, letters⟩⟩
    have written : (Lexeme.word (String.ofList (c :: run))).Written (c :: run) := by
      simpa [String.toList_ofList] using Lexeme.Written.word isWord
    refine .inr ⟨_, _, rest, rfl, List.cons_ne_nil _ _, written, fun _ _ ↦ ?_⟩
    rcases ends with rfl | ⟨d, rest', rfl, other⟩
    · trivial
    · exact other
  by_cases colon : c = ':'
  · subst colon
    by_cases second : ∃ rest, cs = ':' :: rest
    · obtain ⟨rest, rfl⟩ := second
      exact .inr ⟨_, _, rest, rfl, List.cons_ne_nil _ _, .declares, nofun⟩
    · obtain ⟨ts, closes⟩ : ∃ ts, scan (p.advance ':') (.colon p) cs = _ ++ ts := by
        refine exists_scan_eq_close fun d rest shape ↦ ?_
        have other : d ≠ ':' := by
          rintro rfl
          exact second ⟨rest, shape⟩
        exact congrArg Prod.fst (if_neg other)
      exact .inl ⟨':', p.advance ':', ts, closes⟩
  by_cases hyphen : c = '-'
  · subst hyphen
    by_cases second : ∃ rest, cs = '>' :: rest
    · obtain ⟨rest, rfl⟩ := second
      exact .inr ⟨_, _, rest, rfl, List.cons_ne_nil _ _, .arrow, nofun⟩
    · obtain ⟨ts, closes⟩ : ∃ ts, scan (p.advance '-') (.hyphen p) cs = _ ++ ts := by
        refine exists_scan_eq_close fun d rest shape ↦ ?_
        have other : d ≠ '>' := by
          rintro rfl
          exact second ⟨rest, shape⟩
        exact congrArg Prod.fst (if_neg other)
      exact .inl ⟨'-', p.advance '-', ts, closes⟩
  · have opens : Mode.open' p c =
        ([⟨(single? c).getD (.stray c), p, p.advance c⟩], .between) := by
      simp [Mode.open', notBlank, notComment, letter, colon, hyphen]
    cases single : single? c with
    | none =>
      refine .inl ⟨c, p.advance c, scan (p.advance c) .between cs, ?_⟩
      rw [scan, Mode.feed, opens, single]
      rfl
    | some l =>
      refine .inr ⟨l, [c], cs, rfl, List.cons_ne_nil _ _, .symbol single, ?_⟩
      rintro text rfl
      exact (Mode.single?_ne_word c text single).elim

theorem offset_le_advanceAll (cs : List Char) (p : Position) :
    p.offset ≤ (p.advanceAll cs).offset := by
  induction cs generalizing p with
  | nil => exact Nat.le_refl _
  | cons c cs ih => exact Nat.le_trans (Nat.le_of_lt (Mode.offset_lt_advance p c)) (ih _)

/-- Only nothing reaches no further than to where it begins. -/
theorem eq_nil_of_advanceAll_eq {cs : List Char} {p : Position} (h : p.advanceAll cs = p) :
    cs = [] := by
  cases cs with
  | nil => rfl
  | cons c cs =>
    have further := Nat.lt_of_lt_of_le (Mode.offset_lt_advance p c) (offset_le_advanceAll cs _)
    rw [Position.advanceAll_cons] at h
    rw [h] at further
    exact (Nat.lt_irrefl _ further).elim

theorem Apart.of_append {cs ds : List Char} (h : Apart (cs ++ ds)) : Apart cs := by
  cases cs with
  | nil => trivial
  | cons c cs => exact h

/-- A text is cut in front of any of its tokens, or at its end.  If no character is left over among
the tokens in front, and each bracket touches the token before it, the first part of the text
consists of their lexemes. -/
theorem exists_cut {p : Position} (cs : List Char) {before after : List Token}
    (split : scan p .between cs = before ++ after) (known : ∀ t ∈ before, ¬t.lexeme.IsStray)
    (touches : Touches p before) :
    ∃ front back, cs = front ++ back ∧ Snug (before.map Token.lexeme) front ∧
      p.advanceAll front = (after.head?.map Token.start).getD (p.advanceAll cs) := by
  rcases exists_gap cs with trailing | ⟨gap, c, tail, whole, isGap, notBlank, notComment⟩
  · rw [trailing.scan_eq_nil] at split
    obtain ⟨rfl, rfl⟩ := List.append_eq_nil_iff.1 split.symm
    exact ⟨cs, [], (List.append_nil cs).symm, .nil trailing, rfl⟩
  · rw [whole, isGap.scan_append] at split
    cases before with
    | nil =>
      refine ⟨gap, c :: tail, whole, .nil (.gap isGap), ?_⟩
      rw [List.nil_append] at split
      rcases exists_written (p.advanceAll gap) notBlank notComment with
        ⟨c', stop, ts, stray⟩ | ⟨l, written, rest, shape, -, isWritten, apart⟩
      · rw [← split, stray]
        rfl
      · rw [← split, shape, isWritten.scan_append apart]
        rfl
    | cons t before =>
      obtain ⟨first, others⟩ := List.forall_mem_cons.1 known
      rcases exists_written (p.advanceAll gap) notBlank notComment with
        ⟨c', stop, ts, stray⟩ | ⟨l, written, rest, shape, notNil, isWritten, apart⟩
      · rw [stray] at split
        obtain ⟨rfl, -⟩ := List.cons.inj split
        exact (first ⟨c', rfl⟩).elim
      · rw [shape, isWritten.scan_append apart] at split
        obtain ⟨rfl, later⟩ := List.cons.inj split
        obtain ⟨tight, touches⟩ := touches
        have shorter : rest.length < cs.length := by
          have := List.length_pos_iff.2 notNil
          simp only [whole, shape, List.length_append]
          omega
        obtain ⟨front, back, rfl, snug, stop⟩ := exists_cut rest later others touches
        refine ⟨gap ++ (written ++ front), back, by rw [whole, shape]; simp, ?_, ?_⟩
        · exact .cons isGap (fun bracket ↦ eq_nil_of_advanceAll_eq (tight bracket)) isWritten
            (fun text word ↦ (apart text word).of_append) snug
        · rw [whole, shape]
          simp only [Position.advanceAll_append] at stop ⊢
          exact stop
termination_by cs.length
decreasing_by exact shorter

/-- A text without characters left over consists of the lexemes of its tokens, and a bracket that
touches the token before it has no layout in front of it. -/
theorem snug_of_scan {p : Position} (cs : List Char)
    (known : ∀ t ∈ scan p .between cs, ¬t.lexeme.IsStray)
    (touches : Touches p (scan p .between cs)) :
    Snug ((scan p .between cs).map Token.lexeme) cs := by
  obtain ⟨front, back, whole, snug, stop⟩ :=
    exists_cut cs (List.append_nil _).symm known touches
  have nothing : back = [] := by
    rw [whole, Position.advanceAll_append] at stop
    exact eq_nil_of_advanceAll_eq stop.symm
  rw [nothing, List.append_nil] at whole
  rwa [← whole] at snug

theorem Snug.not_isStray {ls : List Lexeme} {cs : List Char} (h : Snug ls cs) :
    ∀ l ∈ ls, ¬l.IsStray := by
  induction h with
  | nil => nofun
  | cons _ _ written _ _ ih => exact List.forall_mem_cons.2 ⟨written.not_isStray, ih⟩

/-- What a text consists of is what the scanner cuts it into. -/
theorem snug_iff {ls : List Lexeme} {cs : List Char} (p : Position) :
    Snug ls cs ↔ (scan p .between cs).map Token.lexeme = ls ∧
      (∀ l ∈ ls, ¬l.IsStray) ∧ Touches p (scan p .between cs) := by
  constructor
  · exact fun h ↦ ⟨h.laid.map_lexeme_scan p, h.not_isStray, h.touches p⟩
  · rintro ⟨rfl, known, touches⟩
    exact snug_of_scan cs (fun t ht ↦ known _ (List.mem_map_of_mem ht)) touches

instance (ls : List Lexeme) (cs : List Char) : Decidable (Snug ls cs) :=
  decidable_of_iff _ (snug_iff .origin).symm

end Taskflow.Grammar
