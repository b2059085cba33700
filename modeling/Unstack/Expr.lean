import Unstack.Instr

namespace Unstack

inductive BinOp where
  | add
  | sub
  | mul
  | div
  | rem
  | eq
  | ne
  | lt
  | gt
  | le
  | ge
  | and
  | or
  | bitAnd
  | bitOr
  | bitXor
  | shl
  | shr
  | ushr
  deriving DecidableEq, Inhabited

inductive UnOp where
  | neg
  | not
  | bitNot
  | preInc
  | preDec
  deriving DecidableEq, Inhabited

inductive PostOp where
  | inc
  | dec
  deriving DecidableEq, Inhabited

namespace BinOp

def ofRelation : Relation → BinOp
  | .eq => eq
  | .ne => ne
  | .lt => lt
  | .ge => ge
  | .gt => gt
  | .le => le

def ofArith : Arith → BinOp
  | .add => add
  | .sub => sub
  | .mul => mul
  | .div => div
  | .rem => rem
  | .and => bitAnd
  | .or => bitOr
  | .xor => bitXor
  | .shl => shl
  | .shr => shr
  | .ushr => ushr

def isRelational : BinOp → Bool
  | eq | ne | lt | gt | le | ge => true
  | _ => false

def isLogical : BinOp → Bool
  | and | or => true
  | _ => false

/-- The relation that holds exactly when this one does not, none for other operators. -/
def negateRelation : BinOp → Option BinOp
  | eq => some ne
  | ne => some eq
  | lt => some ge
  | ge => some lt
  | gt => some le
  | le => some gt
  | _ => none

def hasCompoundForm : BinOp → Bool
  | add | sub | mul | div | rem | bitAnd | bitOr | bitXor | shl | shr | ushr => true
  | _ => false

/-- Higher binds tighter. -/
def precedence : BinOp → Nat
  | or => 3
  | and => 4
  | bitOr => 5
  | bitXor => 6
  | bitAnd => 7
  | eq | ne => 8
  | lt | gt | le | ge => 9
  | shl | shr | ushr => 10
  | add | sub => 11
  | mul | div | rem => 12

def symbol : BinOp → String
  | add => "+"
  | sub => "-"
  | mul => "*"
  | div => "/"
  | rem => "%"
  | eq => "=="
  | ne => "!="
  | lt => "<"
  | gt => ">"
  | le => "<="
  | ge => ">="
  | and => "&&"
  | or => "||"
  | bitAnd => "&"
  | bitOr => "|"
  | bitXor => "^"
  | shl => "<<"
  | shr => ">>"
  | ushr => ">>>"

end BinOp

def UnOp.symbol : UnOp → String
  | neg => "-"
  | not => "!"
  | bitNot => "~"
  | preInc => "++"
  | preDec => "--"

def PostOp.symbol : PostOp → String
  | inc => "++"
  | dec => "--"

inductive Expr where
  | null
  | bool (value : Bool)
  /-- A literal of type `int`, `short` or `byte`. -/
  | int (value : Int)
  | long (value : Int)
  | float (value : Binary64)
  | double (value : Binary64)
  /-- A character literal, given by its UTF-16 unit. -/
  | char (unit : UInt16)
  | string (value : String)
  | classOf (t : JavaType)
  | var (name : String)
  | this
  | typeName (t : JavaType)
  | binary (op : BinOp) (lhs rhs : Expr)
  | unary (op : UnOp) (operand : Expr)
  | post (op : PostOp) (operand : Expr)
  | cast (t : JavaType) (operand : Expr)
  | instanceOf (operand : Expr) (t : JavaType)
  | field (object : Expr) (name : String)
  | index (array position : Expr)
  | length (array : Expr)
  | call (receiver : Expr) (name : String) (args : List Expr)
  | superCall (name : String) (args : List Expr)
  | create (t : JavaType) (args : List Expr)
  | newArray (t : JavaType) (dims : List Expr)
  /-- A new array with elements of type `t` that an initializer fills. -/
  | filledArray (t : JavaType) (dims values : List Expr)
  | conditional (cond whenTrue whenFalse : Expr)
  | assign (target : Expr) (op : Option BinOp) (value : Expr)
  /-- Three-way comparison, which a conditional jump turns into a relation. -/
  | compare (t : JavaType) (lhs rhs : Expr)
  | unknown (text : String)
  deriving Inhabited

namespace Expr

mutual

/-- Equality of expressions as the reconstruction tests it: floating point literals are compared as
numbers. -/
def same : Expr → Expr → Bool
  | null, null | this, this => true
  | bool a, bool b => a == b
  | int a, int b | long a, long b => a == b
  | float a, float b | double a, double b => a.equal b
  | char a, char b => a == b
  | string a, string b | var a, var b | unknown a, unknown b => a == b
  | classOf a, classOf b | typeName a, typeName b => a == b
  | binary op a b, binary op' a' b' => op == op' && same a a' && same b b'
  | unary op a, unary op' a' => op == op' && same a a'
  | post op a, post op' a' => op == op' && same a a'
  | cast t a, cast t' a' => t == t' && same a a'
  | instanceOf a t, instanceOf a' t' => t == t' && same a a'
  | field a name, field a' name' => name == name' && same a a'
  | index a b, index a' b' => same a a' && same b b'
  | length a, length a' => same a a'
  | call a name args, call a' name' args' => name == name' && same a a' && sameAll args args'
  | superCall name args, superCall name' args' => name == name' && sameAll args args'
  | create t args, create t' args' => t == t' && sameAll args args'
  | newArray t dims, newArray t' dims' => t == t' && sameAll dims dims'
  | filledArray t dims values, filledArray t' dims' values' =>
    t == t' && sameAll dims dims' && sameAll values values'
  | conditional c a b, conditional c' a' b' => same c c' && same a a' && same b b'
  | assign a op b, assign a' op' b' => op == op' && same a a' && same b b'
  | compare t a b, compare t' a' b' => t == t' && same a a' && same b b'
  | _, _ => false

def sameAll : List Expr → List Expr → Bool
  | [], [] => true
  | a :: as, b :: bs => same a b && sameAll as bs
  | _, _ => false

end

/-- Logical negation, simplified: a double negation goes away, relations are turned round, and `&&` and
`||` are exchanged. -/
def negate : Expr → Expr
  | unary .not e => e
  | bool b => bool !b
  | binary .and lhs rhs => binary .or lhs.negate rhs.negate
  | binary .or lhs rhs => binary .and lhs.negate rhs.negate
  | binary op lhs rhs =>
    match op.negateRelation with
    | some negated => binary negated lhs rhs
    | none => unary .not (binary op lhs rhs)
  | e => unary .not e

/-- The expression certainly has type `boolean`. -/
def isBoolean : Expr → Bool
  | bool _ | instanceOf .. | unary .not _ => true
  | binary op _ _ => op.isRelational || op.isLogical
  | conditional _ a b => a.isBoolean && b.isBoolean
  | _ => false

def isLiteral : Expr → Bool
  | null | bool _ | int _ | long _ | float _ | double _ | char _ | string _ | classOf _ => true
  | _ => false

def intValue? : Expr → Option Int
  | int v | long v => some v
  | char u => some u.toNat
  | _ => none

/-- How tight the outermost operator binds, higher binds tighter. -/
def precedence : Expr → Nat
  | assign .. => 1
  | conditional .. => 2
  | binary op _ _ => op.precedence
  | instanceOf .. => 9
  | unary .. | cast .. => 13
  | post .. => 14
  | _ => 15

end Expr

end Unstack
