import Unstack.Instr
import Unstack.Number.Shortest
import Unstack.Text.Escape

namespace Unstack

def boolText (b : Bool) : String := if b then "true" else "false"

def Literal.text : Literal → String
  | null => "null"
  | bool b => boolText b
  | int v => toString v
  | float v => v.text
  | classOf t => t.text ++ ".class"
  | string s => Text.listingLiteral s

def Relation.name : Relation → String
  | eq => "Eq"
  | ne => "Ne"
  | lt => "Lt"
  | ge => "Ge"
  | gt => "Gt"
  | le => "Le"

def DupForm.name : DupForm → String
  | dup => "Dup"
  | dupX1 => "DupX1"
  | dupX2 => "DupX2"
  | dup2 => "Dup2"
  | dup2X1 => "Dup2X1"
  | dup2X2 => "Dup2X2"

def PopForm.name : PopForm → String
  | pop => "Pop"
  | pop2 => "Pop2"

def MonitorAction.name : MonitorAction → String
  | enter => "Enter"
  | exit => "Exit"

namespace Arith

def mnemonic : Arith → String
  | add => "ADD"
  | sub => "SUB"
  | mul => "MUL"
  | div => "DIV"
  | rem => "REM"
  | and => "AND"
  | or => "OR"
  | xor => "XOR"
  | shl => "SHL"
  | shr | ushr => "SHR"

end Arith

namespace Instr

def mnemonic : Instr → String
  | arith op _ => op.mnemonic
  | neg _ => "NEG"
  | arrayLoad _ => "ALOAD"
  | arrayStore _ => "ASTORE"
  | arrayLength => "ARRAYLENGTH"
  | cast .. => "CAST"
  | compare _ => "CMP"
  | dup _ => "DUP"
  | pop _ => "POP"
  | swap => "SWAP"
  | fillArray _ => "FILLARRAY"
  | get _ => "GET"
  | put _ => "PUT"
  | goto _ => "GOTO"
  | inc .. => "INC"
  | instanceOf _ => "INSTANCEOF"
  | invoke .. => "INVOKE"
  | jumpCompare .. => "JCMP"
  | jumpZero .. => "JCND"
  | enterSub _ => "JSR"
  | leaveSub _ => "RET"
  | load .. => "LOAD"
  | store .. => "STORE"
  | monitor _ => "MONITOR"
  | create _ => "NEW"
  | createArray .. => "NEWARRAY"
  | push .. => "PUSH"
  | leave _ => "RETURN"
  | switch .. => "SWITCH"
  | raise => "THROW"

def signedText (v : Int) : String := if 0 ≤ v then "+" ++ toString v else toString v

def operandText : Instr → String
  | arith op t => " " ++ t.text ++ if op = .ushr then " unsigned" else ""
  | neg t | arrayLoad t | arrayStore t | compare t | instanceOf t | create t | leave t => " " ++ t.text
  | cast source target => " " ++ source.text ++ " -> " ++ target.text
  | dup form => " " ++ form.name
  | pop form => " " ++ form.name
  | fillArray values => " [" ++ toString values.length ++ " values]"
  | get field | put field => " " ++ field.owner.text ++ "." ++ field.name ++ ": " ++ field.type.text
  | goto target | enterSub target => " " ++ toString target
  | inc _ reg amount => " r" ++ toString reg ++ " " ++ signedText amount
  | invoke method direct =>
    (if direct then " direct " else " ") ++ method.owner.text ++ "." ++ method.name ++ "(" ++
      toString method.params.length ++ ")"
  | jumpCompare t relation target | jumpZero t relation target =>
    " " ++ t.text ++ " " ++ relation.name ++ " " ++ toString target
  | leaveSub reg => " r" ++ toString reg
  | load t reg | store t reg => " " ++ t.text ++ " r" ++ toString reg
  | monitor action => " " ++ action.name
  | createArray t dims => " " ++ t.text ++ " dims=" ++ toString dims
  | push t value => " " ++ t.text ++ " " ++ value.text
  | switch keys targets fallback =>
    String.join ((keys.zip targets).map fun (key, target) => " " ++ toString key ++ "->" ++ toString target) ++
      " default->" ++ toString fallback
  | arrayLength | swap | raise => ""

end Instr

def padLeft (width : Nat) (s : String) : String :=
  String.ofList (List.replicate (width - s.length) ' ') ++ s

def Operation.text (o : Operation) : String :=
  padLeft 4 (toString o.pc) ++ ": " ++ o.instr.mnemonic ++ o.instr.operandText

end Unstack
