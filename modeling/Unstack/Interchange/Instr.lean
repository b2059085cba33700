import Unstack.Instr.Text
import Unstack.Interchange.Member

namespace Unstack

namespace Literal

/-- A constant. Integers that do not fit 64 bits with their sign are read as floating point numbers. -/
def ofJson? : Json → Option Literal
  | .null => some null
  | .bool b => some (bool b)
  | .int v => some (if fitsInt64 v then int v else float (.ofInt v))
  | .float v => some (float v)
  | .str s => some (string s)
  | .obj fields => ((Json.obj fields).required "class" JavaType.ofJson?).map classOf
  | .arr _ => none

def toJson : Literal → Json
  | null => .null
  | bool b => .bool b
  | int v => .int v
  | float v => .float v
  | classOf t => .obj [("class", t.toJson)]
  | string s => .str s

end Literal

def Relation.ofName? (s : String) : Option Relation := [eq, ne, lt, ge, gt, le].find? fun r => r.name = s

def DupForm.ofName? (s : String) : Option DupForm :=
  [dup, dupX1, dupX2, dup2, dup2X1, dup2X2].find? fun form => form.name = s

def PopForm.ofName? (s : String) : Option PopForm := [pop, pop2].find? fun form => form.name = s

def MonitorAction.ofName? (s : String) : Option MonitorAction := [enter, exit].find? fun a => a.name = s

def Json.named? {α : Type} (ofName? : String → Option α) (j : Json) : Option α := do ofName? (← j.str?)

namespace Arith

/-- The name of the operation; the two shifts to the right share one. -/
def name : Arith → String
  | add => "Add"
  | sub => "Sub"
  | mul => "Mul"
  | div => "Div"
  | rem => "Rem"
  | and => "And"
  | or => "Or"
  | xor => "Xor"
  | shl => "Shl"
  | shr | ushr => "Shr"

end Arith

namespace Instr

def name : Instr → String
  | arith op _ => op.name
  | neg _ => "Neg"
  | arrayLoad _ => "ArrayLoad"
  | arrayStore _ => "ArrayStore"
  | arrayLength => "ArrayLength"
  | cast .. => "Cast"
  | compare _ => "Cmp"
  | dup _ => "Dup"
  | pop _ => "Pop"
  | swap => "Swap"
  | fillArray _ => "FillArray"
  | get _ => "Get"
  | put _ => "Put"
  | goto _ => "Goto"
  | inc .. => "Inc"
  | instanceOf _ => "InstanceOf"
  | invoke .. => "Invoke"
  | jumpCompare .. => "Jcmp"
  | jumpZero .. => "Jcnd"
  | enterSub _ => "Jsr"
  | leaveSub _ => "Ret"
  | load .. => "Load"
  | store .. => "Store"
  | monitor _ => "Monitor"
  | create _ => "New"
  | createArray .. => "NewArray"
  | push .. => "Push"
  | leave _ => "Return"
  | switch .. => "Switch"
  | raise => "Throw"

def operands : Instr → List (String × Json)
  | arith .shr t => [("t", t.toJson), ("unsigned", .bool false)]
  | arith .ushr t => [("t", t.toJson), ("unsigned", .bool true)]
  | arith _ t | neg t | arrayLoad t | arrayStore t | compare t | instanceOf t | create t | leave t =>
    [("t", t.toJson)]
  | arrayLength | swap | raise => []
  | cast source target => [("from", source.toJson), ("to", target.toJson)]
  | dup form => [("kind", .str form.name)]
  | pop form => [("kind", .str form.name)]
  | fillArray values => [("values", .ofList Literal.toJson values)]
  | get field | put field => [("field", field.toJson)]
  | goto target | enterSub target => [("target", .ofNat target)]
  | inc t reg amount => [("t", t.toJson), ("reg", .ofNat reg), ("value", .int amount)]
  | invoke method direct => [("method", method.toJson), ("direct", .bool direct)]
  | jumpCompare t relation target | jumpZero t relation target =>
    [("t", t.toJson), ("cmp", .str relation.name), ("target", .ofNat target)]
  | leaveSub reg => [("reg", .ofNat reg)]
  | load t reg | store t reg => [("t", t.toJson), ("reg", .ofNat reg)]
  | monitor action => [("kind", .str action.name)]
  | createArray t dims => [("t", t.toJson), ("dims", .ofNat dims)]
  | push t value => [("t", t.toJson), ("value", value.toJson)]
  | switch keys targets fallback =>
    [("keys", .ofList Json.int keys), ("targets", .ofList Json.ofNat targets),
      ("default_target", .ofNat fallback)]

/-- The instruction of the given name with the operands in the fields of `j`. -/
def ofOperands? (name : String) (j : Json) : Option Instr :=
  let type := j.required "t" JavaType.ofJson?
  let reg := j.required "reg" Json.nat?
  let target := j.required "target" Json.nat?
  let relation := j.required "cmp" (Json.named? Relation.ofName?)
  match name with
  | "Add" => arith .add <$> type
  | "Sub" => arith .sub <$> type
  | "Mul" => arith .mul <$> type
  | "Div" => arith .div <$> type
  | "Rem" => arith .rem <$> type
  | "And" => arith .and <$> type
  | "Or" => arith .or <$> type
  | "Xor" => arith .xor <$> type
  | "Shl" => arith .shl <$> type
  | "Shr" => do
    let unsigned ← j.defaulted "unsigned" false Json.bool?
    arith (if unsigned then .ushr else .shr) <$> type
  | "Neg" => neg <$> type
  | "ArrayLoad" => arrayLoad <$> type
  | "ArrayStore" => arrayStore <$> type
  | "ArrayLength" => some arrayLength
  | "Cast" => cast <$> j.required "from" JavaType.ofJson? <*> j.required "to" JavaType.ofJson?
  | "Cmp" => compare <$> type
  | "Dup" => dup <$> j.required "kind" (Json.named? DupForm.ofName?)
  | "Pop" => pop <$> j.required "kind" (Json.named? PopForm.ofName?)
  | "Swap" => some swap
  | "FillArray" => fillArray <$> j.required "values" (Json.list? Literal.ofJson?)
  | "Get" => get <$> j.required "field" FieldRef.ofJson?
  | "Put" => put <$> j.required "field" FieldRef.ofJson?
  | "Goto" => goto <$> target
  | "Inc" => inc <$> type <*> reg <*> j.required "value" Json.int64?
  | "InstanceOf" => instanceOf <$> type
  | "Invoke" => invoke <$> j.required "method" MethodRef.ofJson? <*> j.defaulted "direct" false Json.bool?
  | "Jcmp" => jumpCompare <$> type <*> relation <*> target
  | "Jcnd" => jumpZero <$> type <*> relation <*> target
  | "Jsr" => enterSub <$> target
  | "Ret" => leaveSub <$> reg
  | "Load" => load <$> type <*> reg
  | "Store" => store <$> type <*> reg
  | "Monitor" => monitor <$> j.required "kind" (Json.named? MonitorAction.ofName?)
  | "New" => create <$> type
  | "NewArray" => createArray <$> type <*> j.defaulted "dims" 1 Json.nat?
  | "Push" => push <$> type <*> j.required "value" Literal.ofJson?
  | "Return" => leave <$> type
  | "Switch" =>
    switch <$> j.required "keys" (Json.list? Json.int32?) <*> j.required "targets" (Json.list? Json.nat?) <*>
      j.required "default_target" Json.nat?
  | "Throw" => some raise
  | _ => none

end Instr

namespace Operation

def ofJson? (j : Json) : Option Operation := do
  return {
    pc := ← j.required "pc" Json.nat?
    opcode := ← j.defaulted "opcode" 0 Json.int16?
    line := ← j.defaulted "line" (-1) Json.int32?
    instr := ← Instr.ofOperands? (← j.required "op" Json.str?) j }

def toJson (o : Operation) : Json :=
  .obj ([("pc", .ofNat o.pc), ("opcode", .ofNat o.opcode.toNat), ("line", .int o.line),
    ("op", .str o.instr.name)] ++ o.instr.operands)

end Operation

end Unstack
