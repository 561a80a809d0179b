import Taskflow.Typing.Report

/-!
# Lint rules

Rules that look for parts of a program that have no effect: functors that nothing refers to, and
signatures of tasks that a functor hides.
-/

namespace Taskflow

/-- A rule and what it finds in a program that is checked in an environment. -/
structure LintRule where
  id : String
  description : String
  check : Program → Environment → List Warning

namespace LintRule

/-- Every name that the root or the body of a functor refers to. -/
def referenced (p : Program) : List String :=
  p.root.references ++ p.functors.flatMap fun f ↦
    match f.2 with
    | .functor _ _ body _ => body.references
    | _ => []

def unusedFunctor : LintRule where
  id := "unused-functor"
  description := "Declared functors should be referenced"
  check p _ := p.functors.filterMap fun f ↦
    if f.1 ∈ referenced p then none
    else some ⟨f.2.span, s!"Functor '{f.1}' is declared but never used", "unused-functor"⟩

def shadowedTask : LintRule where
  id := "shadowed-task"
  description := "Functor names should not collide with task signatures"
  check p env := p.functors.filterMap fun f ↦
    (env.get? f.1).map fun t ↦
      ⟨f.2.span, s!"Functor '{f.1}' shadows the task signature '{f.1} :: {t.render}'",
        "shadowed-task"⟩

/-- The rules that every check applies, in the order of their warnings. -/
def all : List LintRule := [unusedFunctor, shadowedTask]

end LintRule

end Taskflow
