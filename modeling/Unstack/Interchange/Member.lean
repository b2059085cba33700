import Unstack.Json.Value
import Unstack.Member
import Unstack.Text.Blank
import Unstack.Text.Escape

namespace Unstack

namespace JavaType

def ofJson? (j : Json) : Option JavaType := do (ofText (← j.str?)).toOption

def toJson (t : JavaType) : Json := .str t.text

end JavaType

/-- Sixteen bits in hexadecimal digits of either case. A plus sign may stand in front. -/
def hexWord? (cs : List Char) : Option UInt16 :=
  let digits := match cs with
    | '+' :: rest => rest
    | _ => cs
  let value (c : Char) : Option Nat :=
    if c.isDigit then some (c.toNat - '0'.toNat)
    else if 'a' ≤ c && c ≤ 'f' then some (c.toNat - 'a'.toNat + 10)
    else if 'A' ≤ c && c ≤ 'F' then some (c.toNat - 'A'.toNat + 10)
    else none
  match digits.mapM value with
  | none | some [] => none
  | some values =>
    let n : Nat := values.foldl (fun n d => 16 * n + d) 0
    if fitsWord16 n then some (UInt16.ofNat n) else none

namespace AccessFlags

def piece? : List Char → Option UInt16
  | '0' :: 'x' :: digits => hexWord? digits
  | name => named.lookup (String.ofList name)

/-- Names and bits with bars between them; a blank text stands for no flags. -/
def ofText? (s : String) : Option AccessFlags :=
  if s.toList.all Text.isBlank then some none
  else
    ((Text.splitAt '|' s.toList).mapM fun piece => piece? (Text.trim piece)).map fun bits =>
      ⟨bits.foldl (· ||| ·) 0⟩

def namedBits : UInt16 := (named.map Prod.snd).foldl (· ||| ·) 0

/-- The names of the flags, then the bits that have none. -/
def text (flags : AccessFlags) : String :=
  let names := (named.filter fun (_, bit) => flags.has bit).map Prod.fst
  let rest := flags.bits &&& ~~~namedBits
  let bits := if rest = 0 then [] else ["0x" ++ String.ofList (Text.hex 1 rest.toNat)]
  String.intercalate " | " (names ++ bits)

def ofJson? (j : Json) : Option AccessFlags := do ofText? (← j.str?)

def toJson (flags : AccessFlags) : Json := .str flags.text

end AccessFlags

namespace FieldRef

def ofJson? (j : Json) : Option FieldRef := do
  let j ← j.record ["owner", "name", "ty", "flags"]
  return {
    owner := ← j.required "owner" JavaType.ofJson?
    name := ← j.required "name" Json.str?
    type := ← j.required "ty" JavaType.ofJson?
    flags := ← j.defaulted "flags" .none AccessFlags.ofJson? }

def toJson (f : FieldRef) : Json :=
  .obj [("owner", f.owner.toJson), ("name", .str f.name), ("ty", f.type.toJson), ("flags", f.flags.toJson)]

end FieldRef

namespace MethodRef

def ofJson? (j : Json) : Option MethodRef := do
  let j ← j.record ["owner", "name", "params", "ret", "flags"]
  return {
    owner := ← j.required "owner" JavaType.ofJson?
    name := ← j.required "name" Json.str?
    params := ← j.defaulted "params" [] (Json.list? JavaType.ofJson?)
    result := ← j.defaulted "ret" .void JavaType.ofJson?
    flags := ← j.defaulted "flags" .none AccessFlags.ofJson? }

def toJson (m : MethodRef) : Json :=
  .obj [("owner", m.owner.toJson), ("name", .str m.name), ("params", .ofList JavaType.toJson m.params),
    ("ret", m.result.toJson), ("flags", m.flags.toJson)]

end MethodRef

end Unstack
