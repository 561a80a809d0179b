import Taskflow.Proofs.Typing.Bare
import Taskflow.Proofs.Typing.Matching

/-!
# Grouping compositions

The type of a composition of three does not always show that composition is associative, because
types are matched two at a time and variables are wildcards.  Two things can go wrong.  A variable
that occurs twice on one side of the middle operand is bound by its first occurrence only, so one
grouping checks what the other one does not.  And a variable that comes through the middle operand
is lost if it meets another variable there.

It does show it where neither happens (`check_regrouped`).  Both groupings check the same if what
the domain and the codomain of the middle operand have in common occurs once in each
(`Ty.compatible_regroup_iff`), and they yield the same type if variables are not passed on
(`Ty.apply_regroup`).
-/

namespace Taskflow

namespace Ty

/-- Both groupings ask for the same: each pair of types that meet has to be compatible, and so has
what one variable of the middle operand meets on either side. -/
theorem compatible_regroup_iff {b b' c c' : Ty} (linked : b'.LinkedOnce c) :
    c.compatible c' = true ∧ b.compatible (b'.apply (c.bind c' [])) = true ↔
      b.compatible b' = true ∧ (c.apply (b'.bind b [])).compatible c' = true := by
  rw [compatible_comm (c.apply _) c',
    compatible_apply_bind_iff fun x inB inC ↦ (linked x inB inC).2,
    compatible_apply_bind_iff fun x inC inB ↦ (linked x inB inC).1, compatible_comm c' c]
  constructor
  · rintro ⟨fits, fits', met⟩
    refine ⟨fits', fits, ?_⟩
    intro x u t there here
    rw [compatible_comm]
    exact met x t u here there
  · rintro ⟨fits', fits, met⟩
    refine ⟨fits, fits', ?_⟩
    intro x t u here there
    rw [compatible_comm]
    exact met x u t there here

/-- What the inner operand accepts becomes the same in both groupings, if the far end of the middle
operand does not matter to it: no variable leads there at once, nor by way of the near end. -/
theorem apply_regroup {a b b' c c' : Ty} (far : a.Apart c) (near : b'.Apart c ∨ a.Apart b) :
    a.apply (b.bind (b'.apply (c.bind c' [])) []) =
      (a.apply (b.bind b' [])).apply ((c.apply (b'.bind b [])).bind c' []) := by
  rcases near with through | apart
  · rw [apply_bind_of_apart through, apply_bind_of_apart through.symm]
    refine (apply_bind_of_apart fun x mem ↦ ?_).symm
    rcases mem_vars_apply_bind mem with mem | mem
    · exact far x mem
    · exact through x mem
  · rw [apply_bind_of_apart apart, apply_bind_of_apart apart]
    refine (apply_bind_of_apart fun x mem matched ↦ ?_).symm
    rcases mem_vars_apply_bind matched with matched | matched
    · exact far x mem matched
    · exact apart x mem matched

end Ty

namespace Program

variable {p d : Program} {env : Environment}

/-! ## Compositions of three -/

section Three

variable {f g h : Node} {i j k l : NodeId} {r s u v : Span} {t t' : Ty}

theorem hasType_left_iff :
    p.HasType env (.composition i (.composition j h g r) f s) t ↔
      ∃ a b b' c c' e, p.HasType env f (.fn a b) ∧ p.HasType env g (.fn b' c) ∧
        p.HasType env h (.fn c' e) ∧
        (c.compatible c' = true ∧ b.compatible (b'.apply (c.bind c' [])) = true) ∧
        t = .fn (a.apply (b.bind (b'.apply (c.bind c' [])) []))
          ((e.apply (c'.bind c [])).apply ((b'.apply (c.bind c' [])).bind b [])) := by
  rw [hasType_composition_iff]
  constructor
  · rintro ⟨a, b, x, y, hf, hgh, fits, rfl⟩
    obtain ⟨b', c, c', e, hg, hh, fits', same⟩ := hasType_composition_iff.1 hgh
    obtain ⟨rfl, rfl⟩ := Ty.fn.inj same
    exact ⟨a, b, b', c, c', e, hf, hg, hh, ⟨fits', fits⟩, rfl⟩
  · rintro ⟨a, b, b', c, c', e, hf, hg, hh, ⟨fits', fits⟩, rfl⟩
    exact ⟨a, b, _, _, hf, .composition hg hh fits', fits, rfl⟩

theorem hasType_right_iff :
    p.HasType env (.composition i h (.composition j g f r) s) t ↔
      ∃ a b b' c c' e, p.HasType env f (.fn a b) ∧ p.HasType env g (.fn b' c) ∧
        p.HasType env h (.fn c' e) ∧
        (b.compatible b' = true ∧ (c.apply (b'.bind b [])).compatible c' = true) ∧
        t = .fn ((a.apply (b.bind b' [])).apply ((c.apply (b'.bind b [])).bind c' []))
          (e.apply (c'.bind (c.apply (b'.bind b [])) [])) := by
  rw [hasType_composition_iff]
  constructor
  · rintro ⟨x, y, c', e, hfg, hh, fits, rfl⟩
    obtain ⟨a, b, b', c, hf, hg, fits', same⟩ := hasType_composition_iff.1 hfg
    obtain ⟨rfl, rfl⟩ := Ty.fn.inj same
    exact ⟨a, b, b', c, c', e, hf, hg, hh, ⟨fits', fits⟩, rfl⟩
  · rintro ⟨a, b, b', c, c', e, hf, hg, hh, ⟨fits', fits⟩, rfl⟩
    exact ⟨_, _, c', e, .composition hf hg fits', hh, fits, rfl⟩

/-- Both groupings have a type, or none has. -/
theorem typed_regroup_iff (linked : ∀ b' c, p.HasType env g (.fn b' c) → b'.LinkedOnce c) :
    p.Typed env (.composition i (.composition j h g r) f s) ↔
      p.Typed env (.composition k h (.composition l g f u) v) := by
  constructor
  · rintro ⟨t, typed⟩
    obtain ⟨a, b, b', c, c', e, hf, hg, hh, fits, -⟩ := hasType_left_iff.1 typed
    have fits := (Ty.compatible_regroup_iff (linked b' c hg)).1 fits
    exact ⟨_, hasType_right_iff.2 ⟨a, b, b', c, c', e, hf, hg, hh, fits, rfl⟩⟩
  · rintro ⟨t, typed⟩
    obtain ⟨a, b, b', c, c', e, hf, hg, hh, fits, -⟩ := hasType_right_iff.1 typed
    have fits := (Ty.compatible_regroup_iff (linked b' c hg)).2 fits
    exact ⟨_, hasType_left_iff.2 ⟨a, b, b', c, c', e, hf, hg, hh, fits, rfl⟩⟩

/-- The two groupings have one type. -/
theorem eq_of_hasType_regroup
    (apart : ∀ a b b' c c' e, p.HasType env f (.fn a b) → p.HasType env g (.fn b' c) →
      p.HasType env h (.fn c' e) →
        a.Apart c ∧ b'.Apart e ∧ (b'.Apart c ∨ a.Apart b ∧ c'.Apart e))
    (left : p.HasType env (.composition i (.composition j h g r) f s) t)
    (right : p.HasType env (.composition k h (.composition l g f u) v) t') : t = t' := by
  obtain ⟨a, b, b', c, c', e, hf, hg, hh, -, rfl⟩ := hasType_left_iff.1 left
  obtain ⟨a₁, b₁, b₁', c₁, c₁', e₁, hf₁, hg₁, hh₁, -, rfl⟩ := hasType_right_iff.1 right
  obtain ⟨rfl, rfl⟩ := Ty.fn.inj (hf.unique hf₁)
  obtain ⟨rfl, rfl⟩ := Ty.fn.inj (hg.unique hg₁)
  obtain ⟨rfl, rfl⟩ := Ty.fn.inj (hh.unique hh₁)
  obtain ⟨far, far', near⟩ := apart a b b' c c' e hf hg hh
  congr 1
  · exact Ty.apply_regroup far (near.imp_right And.left)
  -- seen from its other end the composition is grouped the other way
  · refine (Ty.apply_regroup far'.symm ?_).symm
    exact near.imp Ty.Apart.symm fun near ↦ near.2.symm

end Three

end Program

/-- Two programs with the same declarations, one of them `(h ∘ g) ∘ f` and the other `h ∘ (g ∘ f)`.
If every variable that the domain and the codomain of `g` have in common occurs once in each then
the programs pass their checks alike.  If moreover no variable leads from the domain of `f` to the
codomain of `g` or from the domain of `g` to the codomain of `h`, and either none leads through `g`
or none through `f` and none through `h`, then they have the same type. -/
theorem check_regrouped {text text' : String} {p q d : Program} {f g h : Node}
    (parsed : Program.parse text = .ok p) (parsed' : Program.parse text' = .ok q)
    (left : p.bare = { d with
      root := .composition 0 (.composition 0 h g .nowhere) f .nowhere, span := .nowhere })
    (right : q.bare = { d with
      root := .composition 0 h (.composition 0 g f .nowhere) .nowhere, span := .nowhere })
    (base : Environment) :
    let env := d.environment base
    ((∀ b' c, d.HasType env g (.fn b' c) → b'.LinkedOnce c) →
      (p.check base).success = (q.check base).success) ∧
    ((∀ a b b' c c' e, d.HasType env f (.fn a b) → d.HasType env g (.fn b' c) →
        d.HasType env h (.fn c' e) →
          a.Apart c ∧ b'.Apart e ∧ (b'.Apart c ∨ a.Apart b ∧ c'.Apart e)) →
      (p.check base).success = true → (q.check base).success = true →
        (p.check base).programType = (q.check base).programType) := by
  have wf := Program.wellFormed_of_parse parsed
  have wf' := Program.wellFormed_of_parse parsed'
  intro env
  constructor
  · intro linked
    rw [Bool.eq_iff_iff, wf.success_iff left, wf'.success_iff right]
    exact and_congr_right fun _ ↦ Program.typed_regroup_iff linked
  · intro apart success success'
    obtain ⟨t, typed⟩ := ((wf.success_iff left base).1 success).2
    obtain ⟨t', typed'⟩ := ((wf'.success_iff right base).1 success').2
    rw [(wf.programType_iff left success).2 typed, (wf'.programType_iff right success').2 typed',
      Program.eq_of_hasType_regroup apart typed typed']

/-- A middle operand that swaps the sides of a pair, between operands that use variables of their
own. -/
theorem check_regrouped_of_swap :
    let declarations := "f :: d -> A × B\ng :: (a × b) -> (b × a)\nh :: (B × c) -> R\n"
    ∃ p q, Program.parse (declarations ++ "(h ∘ g) ∘ f") = .ok p ∧
      Program.parse (declarations ++ "h ∘ (g ∘ f)") = .ok q ∧
      (p.check .empty).success = (q.check .empty).success ∧
      (p.check .empty).programType = (q.check .empty).programType ∧
      (p.check .empty).programType = some (.fn (.var "d") (.mono "R")) := by
  intro declarations
  have parsed := Except.eq_ok_get
    (x := Program.parse (declarations ++ "(h ∘ g) ∘ f")) (by decide +kernel)
  have parsed' := Except.eq_ok_get
    (x := Program.parse (declarations ++ "h ∘ (g ∘ f)")) (by decide +kernel)
  let task (name : String) : Node := .literal 0 name .nowhere
  let f : Ty := .fn (.var "d") (.prod (.mono "A") (.mono "B"))
  let g : Ty := .fn (.prod (.var "a") (.var "b")) (.prod (.var "b") (.var "a"))
  let h : Ty := .fn (.prod (.mono "B") (.var "c")) (.mono "R")
  let d : Program :=
    { signatures := [("f", f), ("g", g), ("h", h)].map fun s ↦ (s.1, ⟨s.1, s.2, .nowhere⟩)
      functors := []
      root := task "f"
      span := .nowhere }
  have typed : ∀ {name t}, (d.environment .empty).get? name = some t →
      d.HasType (d.environment .empty) (task name) t.asFn := .task rfl
  obtain ⟨alike, same⟩ := check_regrouped (f := task "f") (g := task "g") (h := task "h") (d := d)
    parsed parsed' (by decide +kernel) (by decide +kernel) .empty
  refine ⟨_, _, parsed, parsed', ?_, ?_, by decide +kernel⟩
  · refine alike fun b' c hg ↦ ?_
    obtain ⟨rfl, rfl⟩ := Ty.fn.inj (hg.unique (typed (t := g) (by decide +kernel)))
    decide
  · refine same (fun a b b' c c' e hf hg hh ↦ ?_) (by decide +kernel) (by decide +kernel)
    obtain ⟨rfl, rfl⟩ := Ty.fn.inj (hf.unique (typed (t := f) (by decide +kernel)))
    obtain ⟨rfl, rfl⟩ := Ty.fn.inj (hg.unique (typed (t := g) (by decide +kernel)))
    obtain ⟨rfl, rfl⟩ := Ty.fn.inj (hh.unique (typed (t := h) (by decide +kernel)))
    decide

/-- A composition of three can have a type in one grouping and none in the other, and two types that
differ in more than the names of variables: because a variable that comes through the middle operand
occurs twice in what that accepts or in what it yields, because a variable is taken for another one
of its name on either side, and because a variable that comes through the middle operand is lost on
either side. -/
theorem regrouping_matters :
    let types (f g h root : String) : Option (Option Ty) :=
      let source := "f :: " ++ f ++ "\ng :: " ++ g ++ "\nh :: " ++ h ++ "\n" ++ root
      (Program.parse source).toOption.map fun p ↦ (p.check .empty).programType
    let differ (f g h : String) : Prop := ∃ t u,
      types f g h "(h ∘ g) ∘ f" = some (some t) ∧ types f g h "h ∘ (g ∘ f)" = some (some u) ∧
        ∀ r, t.rename r ≠ u ∧ u.rename r ≠ t
    (types "X -> Q × P" "(a × a) -> a" "Q -> R" "(h ∘ g) ∘ f" = some none ∧
      types "X -> Q × P" "(a × a) -> a" "Q -> R" "h ∘ (g ∘ f)" =
        some (some (.fn (.mono "X") (.mono "R")))) ∧
    (types "X -> Q" "a -> (a × a)" "(Q × P) -> R" "(h ∘ g) ∘ f" =
        some (some (.fn (.mono "X") (.mono "R"))) ∧
      types "X -> Q" "a -> (a × a)" "(Q × P) -> R" "h ∘ (g ∘ f)" = some none) ∧
    differ "a -> P" "P -> a" "Q -> R" ∧ differ "X -> Q" "a -> P" "P -> a" ∧
      differ "b -> b" "a -> a" "Q -> R" ∧ differ "X -> Q" "a -> a" "b -> b" := by
  intro types differ
  refine ⟨⟨?_, ?_⟩, ⟨?_, ?_⟩, ?_, ?_, ?_, ?_⟩
  · decide +kernel
  · decide +kernel
  · decide +kernel
  · decide +kernel
  · refine ⟨.fn (.var "a") (.mono "R"), .fn (.mono "Q") (.mono "R"), ?_, ?_, ?_⟩
    · decide +kernel
    · decide +kernel
    · simp [Ty.rename]
  · refine ⟨.fn (.mono "X") (.mono "Q"), .fn (.mono "X") (.var "a"), ?_, ?_, ?_⟩
    · decide +kernel
    · decide +kernel
    · simp [Ty.rename]
  · refine ⟨.fn (.mono "Q") (.mono "R"), .fn (.var "a") (.mono "R"), ?_, ?_, ?_⟩
    · decide +kernel
    · decide +kernel
    · simp [Ty.rename]
  · refine ⟨.fn (.mono "X") (.var "a"), .fn (.mono "X") (.mono "Q"), ?_, ?_, ?_⟩
    · decide +kernel
    · decide +kernel
    · simp [Ty.rename]

end Taskflow
