import Unstack.Json.Value
import Unstack.Number.Shortest
import Unstack.Text.Escape

namespace Unstack.Json

def escapeChar (c : Char) : List Char :=
  if c = '"' || c = '\\' then ['\\', c]
  else if c = '\n' then ['\\', 'n']
  else if c = '\r' then ['\\', 'r']
  else if c = '\t' then ['\\', 't']
  else if c.toNat < 0x20 then '\\' :: 'u' :: Text.hex 4 c.toNat
  else [c]

def quoted (s : String) : String :=
  String.ofList ('"' :: s.toList.flatMap escapeChar ++ ['"'])

mutual

/-- The document on one line without blanks. Numbers that are not finite have no form of their own and are
written as `null`. -/
def text : Json → String
  | null => "null"
  | bool b => if b then "true" else "false"
  | int v => toString v
  | float v =>
    match v with
    | .finite .. => v.text
    | _ => "null"
  | str s => quoted s
  | arr items => "[" ++ String.intercalate "," (itemTexts items) ++ "]"
  | obj fields => "\x7b" ++ String.intercalate "," (fieldTexts fields) ++ "\x7d"

def itemTexts : List Json → List String
  | [] => []
  | item :: rest => item.text :: itemTexts rest

def fieldTexts : List (String × Json) → List String
  | [] => []
  | (name, value) :: rest => (quoted name ++ ":" ++ value.text) :: fieldTexts rest

end

end Unstack.Json
