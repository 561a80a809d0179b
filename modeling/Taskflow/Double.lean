import Taskflow.Decimal
import Taskflow.Digits

/-!
# Numbers of double precision

A finite number, kept as the shortest decimal that names it, or one of the special values.
-/

namespace Taskflow

/-- A number of double precision. -/
inductive Double where
  | finite (x : Decimal)
  | infinity (negative : Bool)
  | nan
deriving DecidableEq, Repr

namespace Double

/-- The number nearest to `± n · 10 ^ e`. -/
def nearest (negative : Bool) (n : Nat) (e : Int) : Double :=
  match Decimal.nearest? negative n e with
  | some x => .finite x
  | none => .infinity negative

def isZero : Double → Bool
  | .finite x => x.isZero
  | _ => false

/-- The text of a number, without an exponent. -/
def render : Double → String
  | .finite x => x.positional ""
  | .infinity true => "-inf"
  | .infinity false => "inf"
  | .nan => "NaN"

/-- The largest count. -/
def largest : Nat := Digits.countLimit - 1

/-- The count nearest to a number, a half counting up.  What is below zero becomes zero,
as does what is no number, and what is too large becomes the largest count. -/
def toCount : Double → Nat
  | .finite x =>
    if x.negative then 0
    else
      let (num, den) := Decimal.scale 10 x.digits 1 x.exponent
      match Decimal.binary? num den with
      | none => largest
      | some (m, q) =>
        let (num, den) := Decimal.scale 2 m 1 q
        min largest ((2 * num + den) / (2 * den))
  | .infinity negative => if negative then 0 else largest
  | .nan => 0

/-- The number that digits with a point or an exponent write.  Digits may be missing before or
after the point, not both. -/
def unsigned? (negative : Bool) (cs : List Char) : Option Double :=
  let whole := cs.takeWhile Char.isDigit
  let (fraction, tail) := match cs.dropWhile Char.isDigit with
    | '.' :: rest => (rest.takeWhile Char.isDigit, rest.dropWhile Char.isDigit)
    | rest => ([], rest)
  let exponent : Option Int := match tail with
    | [] => some 0
    | e :: rest => if e = 'e' ∨ e = 'E' then Digits.int? rest else none
  if whole.isEmpty && fraction.isEmpty then none
  else exponent.map fun e ↦
    nearest negative (Digits.value (whole ++ fraction)) (e - fraction.length)

/-- The number that a text writes: decimal digits, or the name of a special value in any case. -/
def parse? (text : String) : Option Double :=
  let (negative, rest) := Digits.unsigned text.toList
  let name := (String.ofList rest).toLower
  if name = "inf" ∨ name = "infinity" then some (.infinity negative)
  else if name = "nan" then some .nan
  else unsigned? negative rest

end Double

end Taskflow
