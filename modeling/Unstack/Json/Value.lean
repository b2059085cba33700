import Unstack.Number.Binary64
import Unstack.Number.Word

namespace Unstack

/-- A JSON document. Numbers are kept apart by how they are written: `int` for those without a point or an
exponent, as far as 64 bits reach, and `float` for all others. -/
inductive Json where
  | null
  | bool (value : Bool)
  | int (value : Int)
  | float (value : Binary64)
  | str (value : String)
  | arr (items : List Json)
  | obj (fields : List (String × Json))
  deriving Inhabited

namespace Json

/-- The value under a name; of several with the same name the last counts. -/
def lookup (name : String) : List (String × Json) → Option Json
  | [] => none
  | (key, value) :: rest =>
    match lookup name rest with
    | some later => some later
    | none => if key = name then some value else none

def field? (name : String) : Json → Option Json
  | obj fields => lookup name fields
  | _ => none

def fields? : Json → Option (List (String × Json))
  | obj fields => some fields
  | _ => none

def items? : Json → Option (List Json)
  | arr items => some items
  | _ => none

def str? : Json → Option String
  | str s => some s
  | _ => none

def bool? : Json → Option Bool
  | bool b => some b
  | _ => none

/-- An integer in a range; a number written with a point or an exponent is none. -/
def int? (fits : Int → Bool) : Json → Option Int
  | int v => if fits v then some v else none
  | _ => none

/-- An index or a count, which has 64 bits. -/
def nat? (j : Json) : Option Nat := (j.int? fitsWord64).map Int.toNat

def int16? (j : Json) : Option UInt16 := (j.int? fitsWord16).map fun v => UInt16.ofNat v.toNat

def int32? : Json → Option Int := int? fitsInt32

def int64? : Json → Option Int := int? fitsInt64

def list? {α : Type} (read : Json → Option α) (j : Json) : Option (List α) := do
  (← j.items?).mapM read

/-- A record: an object, or the values of the first of the given fields in order, without their names. -/
def record (names : List String) : Json → Option Json
  | obj fields => some (obj fields)
  | arr items => if items.length ≤ names.length then some (obj (names.zip items)) else none
  | _ => none

def required {α : Type} (j : Json) (name : String) (read : Json → Option α) : Option α := do
  read (← j.field? name)

/-- A field that may be missing, but has to be well formed if it is there. -/
def defaulted {α : Type} (j : Json) (name : String) (default : α) (read : Json → Option α) : Option α :=
  match j.field? name with
  | none => some default
  | some value => read value

def optional {α : Type} (j : Json) (name : String) (read : Json → Option α) : Option (Option α) :=
  match j.field? name with
  | none | some .null => some none
  | some value => (read value).map some

def ofNat (n : Nat) : Json := int n

def ofOption {α : Type} (write : α → Json) : Option α → Json
  | none => null
  | some a => write a

def ofList {α : Type} (write : α → Json) (items : List α) : Json :=
  arr (items.map write)

end Json

end Unstack
