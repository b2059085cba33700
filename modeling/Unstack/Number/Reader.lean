import Unstack.Number.Binary64

namespace Unstack

def digitValue (c : Char) : Nat := c.toNat - '0'.toNat

def ofDigits (cs : List Char) : Nat :=
  cs.foldl (fun n c => 10 * n + digitValue c) 0

def signedDigits? (cs : List Char) : Option Int :=
  let (negative, digits) : Bool × List Char :=
    match cs with
    | '-' :: rest => (true, rest)
    | '+' :: rest => (false, rest)
    | rest => (false, rest)
  if digits.isEmpty || !digits.all Char.isDigit then none
  else some (if negative then -(ofDigits digits : Int) else ofDigits digits)

namespace Binary64

/-- The exponent after the digits: none at all, or an `e` and a signed number. -/
def exponentPart? : List Char → Option Int
  | [] => some 0
  | 'e' :: rest | 'E' :: rest => signedDigits? rest
  | _ => none

/-- A number without its sign: digits with at most one point among them, then the exponent part. -/
def unsignedText? (negative : Bool) (cs : List Char) : Option Binary64 :=
  let whole := cs.takeWhile Char.isDigit
  let rest := cs.dropWhile Char.isDigit
  let (fraction, tail) : List Char × List Char :=
    match rest with
    | '.' :: after => (after.takeWhile Char.isDigit, after.dropWhile Char.isDigit)
    | _ => ([], rest)
  if whole.isEmpty && fraction.isEmpty then none
  else (exponentPart? tail).map fun exponent =>
    ofDecimal negative (ofDigits (whole ++ fraction)) (exponent - fraction.length)

/-- Reads decimal numbers, `inf`, `infinity` and `nan`, the words in any case. -/
def ofText? (s : String) : Option Binary64 :=
  let (negative, body) : Bool × List Char :=
    match s.toList with
    | '-' :: rest => (true, rest)
    | '+' :: rest => (false, rest)
    | rest => (false, rest)
  let word := String.ofList (body.map Char.toLower)
  if word = "nan" then some .nan
  else if word = "inf" || word = "infinity" then some (.infinite negative)
  else unsignedText? negative body

end Binary64

end Unstack
