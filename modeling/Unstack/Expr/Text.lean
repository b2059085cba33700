import Unstack.Expr
import Unstack.Instr.Text

namespace Unstack

namespace Expr

/-- Parentheses around an operand that binds looser than `least`. -/
def operand (least : Nat) (precedence : Nat) (s : String) : String :=
  if precedence < least then "(" ++ s ++ ")" else s

def commaList (items : List String) : String := String.intercalate ", " items

/-- A character literal; a surrogate has no character of its own and is written as an escape. -/
def charLiteral (unit : UInt16) : String :=
  if 0xd800 ≤ unit.toNat && unit.toNat ≤ 0xdfff then
    String.ofList ('\'' :: '\\' :: 'u' :: Text.hex 4 unit.toNat ++ ['\''])
  else Text.literal '\'' (String.singleton (Char.ofNat unit.toNat))

/-- The innermost element type and the number of array brackets around it. -/
def elementBase : JavaType → JavaType × Nat
  | .array elem => let (base, depth) := elementBase elem; (base, depth + 1)
  | t => (t, 0)

def brackets (n : Nat) : String := String.join (List.replicate n "[]")

mutual

def text : Expr → String
  | null => "null"
  | bool b => boolText b
  | int v => toString v
  | long v => toString v ++ "L"
  | float v => v.text ++ "F"
  | double v => v.text
  | char unit => charLiteral unit
  | string s => Text.literal '"' s
  | classOf t => t.simpleName ++ ".class"
  | var name => name
  | this => "this"
  | typeName t => t.simpleName
  | binary op lhs rhs =>
    operand op.precedence lhs.precedence lhs.text ++ " " ++ op.symbol ++ " " ++
      operand (op.precedence + 1) rhs.precedence rhs.text
  | unary op e => op.symbol ++ operand 13 e.precedence e.text
  | post op e => operand 14 e.precedence e.text ++ op.symbol
  | cast t e => "(" ++ t.simpleName ++ ") " ++ operand 13 e.precedence e.text
  | instanceOf e t => operand 9 e.precedence e.text ++ " instanceof " ++ t.simpleName
  | field object name => operand 15 object.precedence object.text ++ "." ++ name
  | index array position => operand 15 array.precedence array.text ++ "[" ++ position.text ++ "]"
  | length array => operand 15 array.precedence array.text ++ ".length"
  | call receiver name args =>
    operand 15 receiver.precedence receiver.text ++ "." ++ name ++ "(" ++ commaList (texts args) ++ ")"
  | superCall name args => "super." ++ name ++ "(" ++ commaList (texts args) ++ ")"
  | create t args => "new " ++ t.simpleName ++ "(" ++ commaList (texts args) ++ ")"
  | newArray t dims =>
    let (base, depth) := elementBase t
    "new " ++ base.simpleName ++ String.join ((texts dims).map fun d => "[" ++ d ++ "]") ++
      brackets (depth + 1 - dims.length)
  | filledArray t _ values =>
    let (base, depth) := elementBase t
    "new " ++ base.simpleName ++ brackets (depth + 1) ++ " \x7b" ++ commaList (texts values) ++ "\x7d"
  | conditional c a b =>
    operand 3 c.precedence c.text ++ " ? " ++ operand 3 a.precedence a.text ++ " : " ++
      operand 2 b.precedence b.text
  | assign target op value =>
    operand 15 target.precedence target.text ++ " " ++
      (match op with
        | some op => op.symbol
        | none => "") ++ "= " ++ operand 1 value.precedence value.text
  | compare _ lhs rhs =>
    operand 10 lhs.precedence lhs.text ++ " <=> " ++ operand 10 rhs.precedence rhs.text
  | unknown s => "/* " ++ s ++ " */"

def texts : List Expr → List String
  | [] => []
  | e :: rest => e.text :: texts rest

end

end Expr

end Unstack
