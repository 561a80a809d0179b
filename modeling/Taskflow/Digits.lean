/-!
# Whole numbers in decimal

The number that a run of decimal digits writes.
-/

namespace Taskflow.Digits

/-- The number that decimal digits write, the most significant first. -/
def value (cs : List Char) : Nat := cs.foldl (fun n c ↦ 10 * n + (c.toNat - 48)) 0

/-- The number that a text writes which holds digits only, and at least one. -/
def nat? (cs : List Char) : Option Nat :=
  if cs.isEmpty || !cs.all Char.isDigit then none else some (value cs)

/-- Take a sign off the front; whether it was a minus, and the rest. -/
def unsigned : List Char → Bool × List Char
  | '-' :: rest => (true, rest)
  | '+' :: rest => (false, rest)
  | rest => (false, rest)

/-- The number that digits behind an optional sign write. -/
def int? (cs : List Char) : Option Int :=
  let (negative, digits) := unsigned cs
  (nat? digits).map fun n ↦ if negative then -(n : Int) else n

/-- Counts are below it, which is to say that they fit into 64 bits. -/
def countLimit : Nat := 18446744073709551616

/-- The number that digits write, with or without a plus in front, if it is a count. -/
def count? (cs : List Char) : Option Nat :=
  match (if cs.head? = some '+' then nat? (cs.drop 1) else nat? cs) with
  | some n => if n < countLimit then some n else none
  | none => none

/-- Whether a number fits into 64 bits with a sign. -/
def fitsSigned (n : Int) : Bool := -9223372036854775808 ≤ n && n < 9223372036854775808

end Taskflow.Digits
