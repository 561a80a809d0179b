/-!
# Decimal numbers of double precision

Numbers with a fraction or an exponent are kept as the shortest decimal that names the nearest
binary number with 53 digits of precision.  `Decimal.nearest?` finds it with exact arithmetic: it
rounds the given number to `m · 2 ^ q`, takes the interval of all reals that round there, and looks
for the coarsest decimal grid with a point in it.  `Decimal.scaled?` rounds like a reader that
calculates in double precision itself.
-/

namespace Taskflow

/-- `± digits · 10 ^ exponent`; `digits` is zero or not a multiple of ten. -/
structure Decimal where
  negative : Bool
  digits : Nat
  exponent : Int
deriving DecidableEq, Repr

namespace Decimal

/-- A quotient of natural numbers, rounded to the nearest one; a tie goes to the even one. -/
def roundDiv (num den : Nat) : Nat :=
  let q := num / den
  let r := num % den
  if 2 * r < den then q
  else if den < 2 * r then q + 1
  else q + q % 2

/-- `num / den · base ^ e` as a fraction. -/
def scale (base : Nat) (num den : Nat) (e : Int) : Nat × Nat :=
  match e with
  | .ofNat k => (num * Nat.pow base k, den)
  | .negSucc k => (num, den * Nat.pow base (k + 1))

/-- The least number of 53 binary digits. -/
def full : Nat := 4503599627370496

/-- The binary number nearest to `num / den`: `m` and `q` for `m · 2 ^ q`, where `m` has 53 digits
unless `q` is the least exponent.  None if the number is too large. -/
def binary? (num den : Nat) : Option (Nat × Int) :=
  if num = 0 then some (0, -1074) else
  let guess : Int := (num.log2 : Int) - den.log2 - 52
  -- the guess can be one too large, never too small
  let fits (q : Int) : Bool :=
    let (n, d) := scale 2 num den (-q)
    d * full ≤ n
  let q := max (if fits guess then guess else guess - 1) (-1074)
  let (n, d) := scale 2 num den (-q)
  let m := roundDiv n d
  let (m, q) := if m = 2 * full then (full, q + 1) else (m, q)
  if 971 < q then none else some (m, q)

/-- Drop trailing zeros; `fuel` bounds their number. -/
def normalize : Nat → Nat → Int → Nat × Int
  | 0, d, e => (d, e)
  | fuel + 1, d, e =>
    if d = 0 then (0, 0)
    else if d % 10 = 0 then normalize fuel (d / 10) (e + 1)
    else (d, e)

/-- The number of decimal digits. -/
def width (n : Nat) : Nat := (Nat.repr n).length

/-- Which of two decimals that are equally near is taken. -/
inductive Tie where
  /-- the one whose last digit is even -/
  | even
  /-- the larger one -/
  | up
deriving DecidableEq, Repr

/-- Whether the larger of `d` and `d + 1` is taken if both are equally near. -/
def Tie.goesUp (tie : Tie) (d : Nat) : Bool :=
  match tie with
  | .even => d % 2 == 1
  | .up => true

/-- The decimal with fewest digits that rounds to `m · 2 ^ q`, the nearest of those. -/
def shortest (tie : Tie) (m : Nat) (q : Int) : Nat × Int :=
  if m = 0 then (0, 0) else
  -- everything in quarters of the last binary digit
  let (num, den) := scale 2 (4 * m) 4 q
  let below := if m = full ∧ -1074 < q then 1 else 2
  let (lowNum, lowDen) := scale 2 (4 * m - below) 4 q
  let (highNum, highDen) := scale 2 (4 * m + 2) 4 q
  let closed := m % 2 = 0
  let within (n d : Nat) : Bool :=
    if closed then lowNum * d ≤ n * lowDen && n * highDen ≤ highNum * d
    else lowNum * d < n * lowDen && n * highDen < highNum * d
  -- the decimal exponent of the first digit
  let lead : Int :=
    if den ≤ num then (width (num / den) : Int) - 1
    else -((width (den / num) : Int))
  let onGrid (k : Nat) : Option (Nat × Int) :=
    let e := lead - k
    let (n, d) := scale 10 num den (-e)
    let down := 2 * (n % d) < d || (2 * (n % d) == d && !tie.goesUp (n / d))
    let nearer := if down then n / d else n / d + 1
    let other := if down then n / d + 1 else n / d
    let inside (c : Nat) : Bool := let (x, y) := scale 10 c 1 e; within x y
    if inside nearer then some (nearer, e)
    else if inside other then some (other, e)
    else none
  match (List.range 17).findSome? onGrid with
  | some (d, e) => normalize 20 d e
  | none => (0, 0)

/-- The decimal that stands for `± m · 2 ^ q`. -/
def ofBinary (tie : Tie) (negative : Bool) (x : Nat × Int) : Decimal :=
  let (d, e) := shortest tie x.1 x.2
  ⟨negative, d, e⟩

/-- The decimal that stands for the double nearest to `± n · 10 ^ e`; none if that is infinite. -/
def nearest? (negative : Bool) (n : Nat) (e : Int) : Option Decimal :=
  if n = 0 ∨ e + width n < -400 then some ⟨negative, 0, 0⟩
  else if 400 < e + width n then none
  else
    let (num, den) := scale 10 n 1 e
    (binary? num den).map (ofBinary .up negative)

/-! ## Scaling -/

/-- A power of ten, rounded. -/
def tenTo? (k : Nat) : Option (Nat × Int) := binary? (Nat.pow 10 k) 1

/-- The product of two binary numbers, rounded. -/
def times? (x y : Nat × Int) : Option (Nat × Int) :=
  let (num, den) := scale 2 (x.1 * y.1) 1 (x.2 + y.2)
  binary? num den

/-- The quotient of two binary numbers, rounded. -/
def over? (x y : Nat × Int) : Option (Nat × Int) :=
  let (num, den) := scale 2 x.1 y.1 (x.2 - y.2)
  binary? num den

/-- The decimal that stands for `± n · 10 ^ e` if `n` is rounded, the power of ten is rounded, and
then one is multiplied with or divided by the other.  No power of ten beyond the 308th is finite, so
very small numbers are divided twice.  With few digits and a small exponent only the last step
rounds. -/
def scaled? (negative : Bool) (n : Nat) (e : Int) : Option Decimal :=
  if n = 0 ∨ e < -616 then some ⟨negative, 0, 0⟩
  else if 308 < e then none
  else do
    let x ← binary? n 1
    let y ←
      if 0 ≤ e then times? x (← tenTo? e.toNat)
      else if -308 ≤ e then over? x (← tenTo? (-e).toNat)
      else over? (← over? x (← tenTo? 308)) (← tenTo? (-e - 308).toNat)
    some (ofBinary .even negative y)

def isZero (x : Decimal) : Bool := x.digits == 0

/-- `k` zeros. -/
def zeros (k : Nat) : String := String.ofList (List.replicate k '0')

/-- The number without an exponent; `point` is what follows a whole number. -/
def positional (x : Decimal) (point : String) : String :=
  let digits := Nat.repr x.digits
  let body := match x.exponent with
    | .ofNat k => digits ++ zeros k ++ point
    | .negSucc k =>
      let places := k + 1
      if places < digits.length then
        (digits.take (digits.length - places)).toString ++ "."
          ++ (digits.drop (digits.length - places)).toString
      else "0." ++ zeros (places - digits.length) ++ digits
  (if x.negative then "-" else "") ++ body

/-- The number with an exponent: one digit, the others behind a point, and the power of ten. -/
def scientific (x : Decimal) : String :=
  let digits := Nat.repr x.digits
  let power : Int := x.exponent + digits.length - 1
  let tail := (digits.drop 1).toString
  (if x.negative then "-" else "") ++ (digits.take 1).toString
    ++ (if tail.isEmpty then "" else "." ++ tail) ++ "e" ++ toString power

end Decimal

end Taskflow
