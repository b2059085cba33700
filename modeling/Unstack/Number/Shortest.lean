import Unstack.Number.Binary64

namespace Unstack.Binary64

/-- The reals that round to a finite number, as numerators over one denominator: the number itself and
the two ends of the interval, which belong to it exactly when the mantissa is even. -/
structure Interval where
  low : Nat
  value : Nat
  high : Nat
  den : Nat
  closed : Bool

/-- The interval around `mantissa * 2 ^ exponent`. Below a power of two the neighbour is only half as far
away. -/
def interval (mantissa : Nat) (exponent : Int) : Interval :=
  let gap := if mantissa = leastNormal && leastExponent < exponent then 1 else 2
  let two := Nat.pow 2 exponent.natAbs
  let up := if exponent < 0 then 1 else two
  { low := (4 * mantissa - gap) * up
    value := 4 * mantissa * up
    high := (4 * mantissa + 2) * up
    den := if exponent < 0 then 4 * two else 4
    closed := mantissa % 2 = 0 }

/-- Whether `n * 10 ^ grid` lies in the interval. -/
def Interval.holds (i : Interval) (n : Nat) (grid : Int) : Bool :=
  let point := if grid < 0 then n * i.den else n * Nat.pow 10 grid.natAbs * i.den
  let unit := if grid < 0 then Nat.pow 10 grid.natAbs else 1
  if i.closed then i.low * unit ≤ point && point ≤ i.high * unit
  else i.low * unit < point && point < i.high * unit

/-- The point of the decimal grid `10 ^ grid` that is in the interval and nearest to its value, if one of
the value's two neighbours on the grid is in it; of two equally near ones the upper. -/
def Interval.nearest? (i : Interval) (grid : Int) : Option Nat :=
  let num := if grid < 0 then i.value * Nat.pow 10 grid.natAbs else i.value
  let den := if grid < 0 then i.den else i.den * Nat.pow 10 grid.natAbs
  let below := num / den
  let twice := 2 * (num % den)
  match i.holds below grid, i.holds (below + 1) grid with
  | true, true => some (if twice < den then below else below + 1)
  | true, false => some below
  | false, true => some (below + 1)
  | false, false => none

/-- The place of the first decimal digit of `num / den`: the exponent of the greatest power of ten that is
not above it. The search goes down from `place` for at most `fuel` steps. -/
def leadingPlace (num den : Nat) : Nat → Int → Int
  | 0, place => place
  | fuel + 1, place =>
    let reached :=
      if place < 0 then den ≤ num * Nat.pow 10 place.natAbs else den * Nat.pow 10 place.natAbs ≤ num
    if reached then place else leadingPlace num den fuel (place - 1)

/-- The nearest point on the coarsest decimal grid that has one in the interval, from one digit at the
leading `place` to eighteen; seventeen digits always suffice. -/
def Interval.shortest? (i : Interval) (place : Int) : Option (Nat × Int) :=
  (List.range 18).findSome? fun (k : Nat) =>
    let grid : Int := place - k
    (i.nearest? grid).map (·, grid)

/-- Drops zeros at the end of the digits and counts them into the exponent. -/
def stripZeros : Nat → Nat → Int → Nat × Int
  | 0, digits, exponent => (digits, exponent)
  | fuel + 1, digits, exponent =>
    if digits ≠ 0 && digits % 10 = 0 then stripZeros fuel (digits / 10) (exponent + 1)
    else (digits, exponent)

/-- The fewest decimal digits that read back as the same number, and the exponent of the last of them. -/
def shortestDigits (mantissa : Nat) (exponent : Int) : Nat × Int :=
  let i := interval mantissa exponent
  let estimate : Int := ((i.value.log2 : Int) - (i.den.log2 : Int)) * 30103 / 100000 + 1
  let place := leadingPlace i.value i.den 4 estimate
  let (digits, last) := (i.shortest? place).getD (0, 0)
  stripZeros 20 digits last

def positional (digits : String) (last : Int) : String :=
  if 0 ≤ last then digits ++ String.ofList (List.replicate last.natAbs '0') ++ ".0"
  else
    let places := last.natAbs
    let cs := digits.toList
    if places < cs.length then
      String.ofList (cs.take (cs.length - places)) ++ "." ++ String.ofList (cs.drop (cs.length - places))
    else "0." ++ String.ofList (List.replicate (places - cs.length) '0') ++ digits

def exponential (digits : String) (last : Int) : String :=
  let cs := digits.toList
  let power := last + cs.length - 1
  let fraction := if cs.length ≤ 1 then "" else "." ++ String.ofList (cs.drop 1)
  String.ofList (cs.take 1) ++ fraction ++ "e" ++ toString power

/-- Magnitudes from `10 ^ -4` up to but not including `10 ^ 16` are written with a point, all others but
zero with an exponent. -/
def magnitudeText (mantissa : Nat) (exponent : Int) : String :=
  if mantissa = 0 then "0.0"
  else
    let (digits, last) := shortestDigits mantissa exponent
    let text := toString digits
    let place := last + text.length - 1
    if place < -4 || 16 ≤ place then exponential text last else positional text last

/-- The shortest text that reads back as the same number, never without a point or an exponent. -/
def text : Binary64 → String
  | .nan => "NaN"
  | .infinite negative => if negative then "-inf" else "inf"
  | .finite negative mantissa exponent =>
    (if negative then "-" else "") ++ magnitudeText mantissa exponent

end Unstack.Binary64
