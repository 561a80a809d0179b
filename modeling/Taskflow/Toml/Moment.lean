import Taskflow.Digits

/-!
# Dates and times of TOML

A moment is a date, a time of day or both, and one of both can have an offset from universal time.
Settings hold none, so a moment is kept in its canonical text: with `T` between date and time, with
no more than nine digits behind the second and none of them idle, and with no negative offset of
zero.
-/

namespace Taskflow.Toml

/-- How far the numbers of a moment go, and what can stand between its date and its time. -/
structure MomentBounds where
  hour : Nat
  offsetHour : Nat
  offsetMinute : Nat
  between : List Char
deriving DecidableEq, Repr

namespace MomentBounds

/-- The bounds for a moment that stands in a document as it is. -/
def plain : MomentBounds := ⟨23, 23, 59, ['T', 't']⟩

/-- The bounds for a moment that is given as a text. -/
def quoted : MomentBounds := ⟨24, 99, 99, ['T', 't', ' ']⟩

end MomentBounds

/-- A number of two digits within bounds, and the rest. -/
def pair? (low high : Nat) : List Char → Option (Nat × List Char)
  | a :: b :: rest =>
    let n := Digits.value [a, b]
    if a.isDigit && b.isDigit && low ≤ n && n ≤ high then some (n, rest) else none
  | _ => none

/-- How many days a month has. -/
def daysIn (year month : Nat) : Nat :=
  if month = 2 then
    if year % 4 = 0 ∧ (year % 100 ≠ 0 ∨ year % 400 = 0) then 29 else 28
  else if month ∈ [4, 6, 9, 11] then 30
  else 31

/-- What follows a date. -/
def afterDate? : List Char → Option (List Char)
  | a :: b :: c :: d :: '-' :: cs =>
    if [a, b, c, d].all Char.isDigit then do
      match ← pair? 1 12 cs with
      | (month, '-' :: cs) => (pair? 1 (daysIn (Digits.value [a, b, c, d]) month) cs).map (·.2)
      | _ => none
    else none
  | _ => none

/-- Whether a text is a date and nothing else. -/
def isDate (cs : List Char) : Bool := afterDate? cs == some []

/-- What follows hour, minute and second. -/
def afterSecond? (bounds : MomentBounds) (cs : List Char) : Option (List Char) := do
  match ← pair? 0 bounds.hour cs with
  | (_, ':' :: cs) =>
    match ← pair? 0 59 cs with
    | (_, ':' :: cs) => (pair? 0 60 cs).map (·.2)
    | _ => none
  | _ => none

/-- The digits behind a second that count, and the point in front of them. -/
def fraction (digits : List Char) : List Char :=
  match ((digits.take 9).reverse.dropWhile (· == '0')).reverse with
  | [] => []
  | kept => '.' :: kept

/-- The canonical text of a time of day, and what follows it. -/
def time? (bounds : MomentBounds) (cs : List Char) : Option (List Char × List Char) := do
  match ← afterSecond? bounds cs with
  | '.' :: rest =>
    let digits := rest.takeWhile Char.isDigit
    if digits.isEmpty then none
    else some (cs.take 8 ++ fraction digits, rest.dropWhile Char.isDigit)
  | rest => some (cs.take 8, rest)

/-- The text of an offset of some minutes, at most a day. -/
def offsetText (sign : Char) (minutes : Nat) : List Char :=
  let two (n : Nat) : List Char := [Nat.digitChar (n / 10), Nat.digitChar (n % 10)]
  (if minutes = 0 then '+' else sign) :: two (minutes / 60) ++ ':' :: two (minutes % 60)

/-- The canonical text of an offset from universal time, which can be missing. -/
def offset? (bounds : MomentBounds) : List Char → Option (List Char)
  | [] => some []
  | ['Z'] | ['z'] => some ['Z']
  | sign :: cs => do
    if sign ≠ '+' ∧ sign ≠ '-' then none
    else
      match ← pair? 0 bounds.offsetHour cs with
      | (hours, ':' :: rest) =>
        match ← pair? 0 bounds.offsetMinute rest with
        | (minutes, []) =>
          let total := 60 * hours + minutes
          if total ≤ 24 * 60 then some (offsetText sign total) else none
        | _ => none
      | _ => none

/-- The canonical text of a moment. -/
def moment? (bounds : MomentBounds) (cs : List Char) : Option String :=
  match afterDate? cs with
  | some [] => some (String.ofList cs)
  | some (t :: rest) => do
    if !bounds.between.contains t then none
    else
      let (time, rest) ← time? bounds rest
      some (String.ofList (cs.take 10 ++ 'T' :: time ++ (← offset? bounds rest)))
  | none =>
    match time? bounds cs with
    | some (time, []) => some (String.ofList time)
    | _ => none

end Taskflow.Toml
