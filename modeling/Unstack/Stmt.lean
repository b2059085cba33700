import Unstack.Expr.Text

namespace Unstack

/-- Statements of a basic block. Control statements carry only the expression at their head; where they
go are the edges of the block. -/
inductive Stmt where
  | expr (e : Expr)
  | declare (t : JavaType) (name : String) (value : Option Expr)
  | leave (value : Option Expr)
  | raise (e : Expr)
  | branch (cond : Expr)
  | switch (discriminant : Expr)
  | monitor (action : MonitorAction) (object : Expr)
  | superInit (args : List Expr)
  | comment (text : String)
  deriving Inhabited

namespace Stmt

def isBranch : Stmt → Bool
  | branch _ => true
  | _ => false

def isSwitch : Stmt → Bool
  | switch _ => true
  | _ => false

def monitor? : Stmt → Option MonitorAction
  | monitor action _ => some action
  | _ => none

def text : Stmt → String
  | expr e => e.text ++ ";"
  | declare t name (some value) => t.simpleName ++ " " ++ name ++ " = " ++ value.text ++ ";"
  | declare t name none => t.simpleName ++ " " ++ name ++ ";"
  | leave none => "return;"
  | leave (some e) => "return " ++ e.text ++ ";"
  | raise e => "throw " ++ e.text ++ ";"
  | branch cond => "if (" ++ cond.text ++ ")"
  | switch discriminant => "switch (" ++ discriminant.text ++ ")"
  | monitor .enter object => "synchronized (" ++ object.text ++ ") \x7b"
  | monitor .exit object => "\x7d // synchronized (" ++ object.text ++ ")"
  | superInit args => "super(" ++ Expr.commaList (Expr.texts args) ++ ");"
  | comment s => "// " ++ s

end Stmt

end Unstack
