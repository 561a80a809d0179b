import Taskflow.Ty

/-!
# Substitutions

Matching a pattern against a type records what each variable of the pattern met.  The first meeting
counts: later occurrences of the same variable are not compared with it.  Applying a substitution
replaces all bound variables at once.
-/

namespace Taskflow

/-- What variables stand for; a name occurs once. -/
abbrev Substitution := List (String × Ty)

namespace Substitution

/-- Bind `a` to `t` unless it is bound already. -/
def bindNew (s : Substitution) (a : String) (t : Ty) : Substitution :=
  if (s.lookup a).isSome then s else s ++ [(a, t)]

end Substitution

namespace Ty

/-- Record in `s` what the variables of the first type, the pattern, meet in the second.  A variable
that meets itself is left unbound. -/
def bind : Ty → Ty → Substitution → Substitution
  | .var a, t, s => if t = .var a then s else s.bindNew a t
  | .fn a b, .fn a' b', s => b.bind b' (a.bind a' s)
  | .prod a b, .prod a' b', s => b.bind b' (a.bind a' s)
  | _, _, s => s

/-- Replace every bound variable by what it stands for. -/
def apply (s : Substitution) : Ty → Ty
  | .var a => (s.lookup a).getD (.var a)
  | .fn a b => .fn (a.apply s) (b.apply s)
  | .prod a b => .prod (a.apply s) (b.apply s)
  | .mono a => .mono a
  | .unit => .unit

/-- Replace one variable. -/
def substitute (t : Ty) (a : String) (by' : Ty) : Ty := t.apply [(a, by')]

@[simp] theorem apply_nil (t : Ty) : t.apply [] = t := by
  induction t <;> simp_all [apply]

end Ty

end Taskflow
