/-!
# Durations

Lengths of time in nanoseconds, and their text: the largest unit of which there is at least one, and
the rest as a decimal fraction of it.
-/

namespace Taskflow

/-- A length of time. -/
structure Duration where
  nanos : Nat
deriving DecidableEq, Repr

namespace Duration

def ofMillis (ms : Nat) : Duration := ⟨ms * 1000000⟩

/-- A fraction, given by that many digits, without trailing zeros; nothing if it is zero. -/
def fraction (places : Nat) (n : Nat) : String :=
  let digits := (Nat.repr n).toList
  let padded := List.replicate (places - digits.length) '0' ++ digits
  let kept := (padded.reverse.dropWhile (· == '0')).reverse
  if kept.isEmpty then "" else "." ++ String.ofList kept

/-- `n` in units of `10 ^ places`. -/
def inUnits (n places : Nat) (unit : String) : String :=
  Nat.repr (n / Nat.pow 10 places) ++ fraction places (n % Nat.pow 10 places) ++ unit

def render (d : Duration) : String :=
  if 1000000000 ≤ d.nanos then inUnits d.nanos 9 "s"
  else if 1000000 ≤ d.nanos then inUnits d.nanos 6 "ms"
  else if 1000 ≤ d.nanos then inUnits d.nanos 3 "µs"
  else inUnits d.nanos 0 "ns"

end Duration

end Taskflow
