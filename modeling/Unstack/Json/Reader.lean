import Unstack.Json.Value
import Unstack.Number.Reader

namespace Unstack.Json

def isSpace (c : Char) : Bool := c = ' ' || c = '\n' || c = '\t' || c = '\r'

def skipSpace (cs : List Char) : List Char := cs.dropWhile isSpace

def hexValue? (c : Char) : Option Nat :=
  if c.isDigit then some (c.toNat - '0'.toNat)
  else if 'a' ≤ c && c ≤ 'f' then some (c.toNat - 'a'.toNat + 10)
  else if 'A' ≤ c && c ≤ 'F' then some (c.toNat - 'A'.toNat + 10)
  else none

def hex4? : List Char → Option (Nat × List Char)
  | a :: b :: c :: d :: rest => do
    let n := ((← hexValue? a) * 16 + (← hexValue? b)) * 256 + (← hexValue? c) * 16 + (← hexValue? d)
    return (n, rest)
  | _ => none

/-- The character after `\u`: one unit, or a surrogate pair written as two escapes. A surrogate that
stands alone is refused. -/
def unicodeEscape? (cs : List Char) : Option (Char × List Char) := do
  let (unit, rest) ← hex4? cs
  if 0xdc00 ≤ unit && unit ≤ 0xdfff then none
  else if 0xd800 ≤ unit && unit ≤ 0xdbff then
    match rest with
    | '\\' :: 'u' :: more =>
      let (low, after) ← hex4? more
      if 0xdc00 ≤ low && low ≤ 0xdfff then
        return (Char.ofNat (0x10000 + (unit - 0xd800) * 0x400 + (low - 0xdc00)), after)
      else none
    | _ => none
  else return (Char.ofNat unit, rest)

def simpleEscape? : Char → Option Char
  | '"' => some '"'
  | '\\' => some '\\'
  | '/' => some '/'
  | 'b' => some '\x08'
  | 'f' => some '\x0c'
  | 'n' => some '\n'
  | 'r' => some '\r'
  | 't' => some '\t'
  | _ => none

def stringBody? : Nat → List Char → List Char → Option (String × List Char)
  | 0, _, _ => none
  | _, _, [] => none
  | _, done, '"' :: rest => some (String.ofList done.reverse, rest)
  | fuel + 1, done, '\\' :: 'u' :: rest => do
    let (c, after) ← unicodeEscape? rest
    stringBody? fuel (c :: done) after
  | fuel + 1, done, '\\' :: e :: rest => do
    stringBody? fuel ((← simpleEscape? e) :: done) rest
  | fuel + 1, done, c :: rest =>
    if c = '\\' || c.toNat < 0x20 then none else stringBody? fuel (c :: done) rest

def string? (cs : List Char) : Option (String × List Char) :=
  stringBody? (cs.length + 1) [] cs

def exponent? : List Char → Option (Option Int × List Char)
  | 'e' :: rest | 'E' :: rest =>
    let (negative, digits) : Bool × List Char :=
      match rest with
      | '-' :: more => (true, more)
      | '+' :: more => (false, more)
      | more => (false, more)
    let run := digits.takeWhile Char.isDigit
    if run.isEmpty then none
    else
      let value : Int := ofDigits run
      some (some (if negative then -value else value), digits.dropWhile Char.isDigit)
  | rest => some (none, rest)

def fraction? : List Char → Option (Option (List Char) × List Char)
  | '.' :: rest =>
    let run := rest.takeWhile Char.isDigit
    if run.isEmpty then none else some (some run, rest.dropWhile Char.isDigit)
  | rest => some (none, rest)

/-- A number written without point and exponent. What needs more than 64 bits becomes a floating point
number, and so does a zero with a minus sign. -/
def wholeNumber (negative : Bool) (n : Nat) : Json :=
  if negative then
    if n = 0 || !fitsInt64 (-n) then float (Binary64.ofRatio true n 1) else int (-(n : Int))
  else if fitsWord64 n then int n
  else float (Binary64.ofDecimal false n 0)

/-- Floating point numbers beyond the range are refused. -/
def inRange? : Json → Option Json
  | float (.infinite _) => none
  | j => some j

def number? (cs : List Char) : Option (Json × List Char) := do
  let (negative, body) : Bool × List Char :=
    match cs with
    | '-' :: rest => (true, rest)
    | rest => (false, rest)
  let whole := body.takeWhile Char.isDigit
  if whole.isEmpty || (whole.length > 1 && whole.head? = some '0') then none
  else
    let (fraction, afterFraction) ← fraction? (body.dropWhile Char.isDigit)
    let (exponent, rest) ← exponent? afterFraction
    let value :=
      match fraction, exponent with
      | none, none => wholeNumber negative (ofDigits whole)
      | _, _ =>
        let digits := fraction.getD []
        float (Binary64.ofDecimal negative (ofDigits (whole ++ digits)) (exponent.getD 0 - digits.length))
    return (← inRange? value, rest)

def greatestDepth : Nat := 127

mutual

def value? : Nat → Nat → List Char → Option (Json × List Char)
  | 0, _, _ => none
  | fuel + 1, depth, cs =>
    match skipSpace cs with
    | 'n' :: 'u' :: 'l' :: 'l' :: rest => some (null, rest)
    | 't' :: 'r' :: 'u' :: 'e' :: rest => some (bool true, rest)
    | 'f' :: 'a' :: 'l' :: 's' :: 'e' :: rest => some (bool false, rest)
    | '"' :: rest => (string? rest).map fun (s, after) => (str s, after)
    | '[' :: rest =>
      match depth with
      | 0 => none
      | depth + 1 =>
        match skipSpace rest with
        | ']' :: after => some (arr [], after)
        | more => (elements? fuel depth [] more).map fun (items, after) => (arr items, after)
    | '{' :: rest =>
      match depth with
      | 0 => none
      | depth + 1 =>
        match skipSpace rest with
        | '}' :: after => some (obj [], after)
        | more => (members? fuel depth [] more).map fun (fields, after) => (obj fields, after)
    | rest => number? rest

/-- The rest of an array from an element on, the elements before it given in reverse. -/
def elements? : Nat → Nat → List Json → List Char → Option (List Json × List Char)
  | 0, _, _, _ => none
  | fuel + 1, depth, done, cs => do
    let (item, rest) ← value? fuel depth cs
    match skipSpace rest with
    | ',' :: more => elements? fuel depth (item :: done) more
    | ']' :: more => some ((item :: done).reverse, more)
    | _ => none

/-- The rest of an object from a name on, the fields before it given in reverse. -/
def members? : Nat → Nat → List (String × Json) → List Char → Option (List (String × Json) × List Char)
  | 0, _, _, _ => none
  | fuel + 1, depth, done, cs =>
    match skipSpace cs with
    | '"' :: rest => do
      let (name, afterName) ← string? rest
      match skipSpace afterName with
      | ':' :: afterColon => do
        let (item, after) ← value? fuel depth afterColon
        match skipSpace after with
        | ',' :: more => members? fuel depth ((name, item) :: done) more
        | '}' :: more => some (((name, item) :: done).reverse, more)
        | _ => none
      | _ => none
    | _ => none

end

def ofText? (s : String) : Option Json := do
  let cs := s.toList
  let (value, rest) ← value? (cs.length + 2) greatestDepth cs
  if (skipSpace rest).isEmpty then some value else none

end Unstack.Json
