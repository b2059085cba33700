import Unstack.Frame.Effect
import Unstack.Graph
import Unstack.Number.Word
import Unstack.Options

namespace Unstack

/-- What the reconstruction of a block reads and does not change. -/
structure Setting where
  info : MethodInfo
  frames : Array (Option Frame)
  declaringType : JavaType
  compoundAssignments : Bool

namespace Setting

def topType (env : Setting) (pc : Nat) : Option JavaType := do
  let frame ← (env.frames[pc]?).join
  return (← frame.peek).type

def varName (env : Setting) (reg pc : Nat) : String :=
  match env.info.localAt reg pc with
  | some v => v.name
  | none => if env.info.thisReg = some reg then "this" else "r" ++ toString reg

def regExpr (env : Setting) (reg pc : Nat) : Expr :=
  let name := env.varName reg pc
  if name = "this" && env.info.thisReg = some reg then .this else .var name

end Setting

def Literal.toExpr (t : JavaType) : Literal → Expr
  | null => .null
  | bool b => .bool b
  | int v =>
    match t with
    | .boolean => .bool (v != 0)
    | .char => if fitsWord16 v then .char (UInt16.ofNat v.toNat) else .int v
    | .long => .long v
    | .float => .float (Binary64.ofInt v)
    | .double => .double (Binary64.ofInt v)
    | _ => .int v
  | float v => if t = .float then .float v else .double v
  | classOf t => .classOf t
  | string s => .string s

namespace Expr

/-- An integer literal where a `boolean` or a `char` is wanted is written as one. -/
def coerce (t : JavaType) : Expr → Expr
  | int v =>
    match t with
    | .boolean => if v = 0 then bool false else if v = 1 then bool true else int v
    | .char => if fitsWord16 v then char (UInt16.ofNat v.toNat) else int v
    | _ => int v
  | e => e

/-- What an array element of type `t` holds before anything is stored. -/
def initial : JavaType → Expr
  | .boolean => bool false
  | .char => char 0
  | .long => long 0
  | .float => float (.zero false)
  | .double => double (.zero false)
  | .byte | .short | .int => int 0
  | _ => null

/-- The condition of a jump that compares a value of type `t` with zero or `null`. -/
def zeroTest (t : JavaType) (relation : Relation) (value : Expr) : Expr :=
  let op := BinOp.ofRelation relation
  match value with
  | compare _ lhs rhs => binary op lhs rhs
  | value =>
    if t.isReference then binary op value null
    else if t = .boolean || value.isBoolean then
      match relation with
      | .eq => value.negate
      | .ne => value
      | _ => binary op value (int 0)
    else binary op value (int 0)

/-- An assignment, in compound form where that is wanted and the value repeats the target. -/
def assignment (compound : Bool) (target value : Expr) : Expr :=
  match value with
  | binary op lhs rhs =>
    if compound && op.hasCompoundForm && lhs.same target then assign target (some op) rhs
    else assign target none value
  | _ => assign target none value

def isStringBuilder (t : JavaType) : Bool :=
  t.isObject "java.lang.StringBuilder" || t.isObject "java.lang.StringBuffer"

/-- The parts that a chain of `append` calls on a new builder puts together, in order. -/
def builderParts : Expr → Option (List Expr)
  | call receiver "append" [part] => (builderParts receiver).map (· ++ [part])
  | create t args => if isStringBuilder t && args.length ≤ 1 then some args else none
  | _ => none

def isStringLiteral : Expr → Bool
  | string _ => true
  | _ => false

/-- The sum that a chain of `append` calls on a new builder stands for. An empty string comes first if
none of the parts is a string literal. -/
def concat? (e : Expr) : Option Expr := do
  let parts ← builderParts e
  let parts := if parts.any isStringLiteral then parts else string "" :: parts
  match parts with
  | [] => none
  | first :: rest => some (rest.foldl (binary .add) first)

end Expr

structure Scratch where
  /-- Top first. -/
  stack : List StackValue
  stmts : List Stmt
  nextValue : Nat
  deriving Inhabited

namespace Scratch

/-- What is taken from an empty stack. -/
def missing : StackValue := ⟨4294967295, .unknown "underflow"⟩

def pop (s : Scratch) : StackValue × Scratch :=
  match s.stack with
  | [] => (missing, s)
  | value :: rest => (value, { s with stack := rest })

def popExpr (s : Scratch) : Expr × Scratch :=
  let (value, s) := s.pop
  (value.expr, s)

/-- Takes `count` values; the one that lay deepest comes first. -/
def popExprs : Nat → Scratch → List Expr × Scratch
  | 0, s => ([], s)
  | count + 1, s =>
    let (top, s) := s.popExpr
    let (below, s) := popExprs count s
    (below ++ [top], s)

def push (s : Scratch) (e : Expr) : Scratch :=
  { s with stack := ⟨s.nextValue, e⟩ :: s.stack, nextValue := s.nextValue + 1 }

def emit (s : Scratch) (stmt : Stmt) : Scratch := { s with stmts := s.stmts ++ [stmt] }

def replaceTop (s : Scratch) (e : Expr) : Scratch :=
  match s.stack with
  | [] => s
  | top :: rest => { s with stack := { top with expr := e } :: rest }

def mapTop (s : Scratch) (f : Expr → Expr) : Scratch :=
  let (e, s) := s.popExpr
  s.push (f e)

def mapTwo (s : Scratch) (f : Expr → Expr → Expr) : Scratch :=
  let (rhs, s) := s.popExpr
  let (lhs, s) := s.popExpr
  s.push (f lhs rhs)

/-- Exclusive or with minus one is the complement. -/
def xorExpr (lhs rhs : Expr) : Expr :=
  if rhs.intValue? = some (-1) then .unary .bitNot lhs else .binary .bitXor lhs rhs

def arithExpr (op : Arith) (lhs rhs : Expr) : Expr :=
  match op with
  | .xor => xorExpr lhs rhs
  | op => .binary (.ofArith op) lhs rhs

def dup (s : Scratch) (form : DupForm) : Checked Scratch :=
  let (count, below) := form.shape
  if s.stack.length < count + below then .error (.noPosition (count + below))
  else .ok { s with stack := dupStack count below s.stack }

def swap (s : Scratch) : Checked Scratch :=
  match s.stack with
  | a :: b :: rest => .ok { s with stack := b :: a :: rest }
  | _ => .error (.noPosition 2)

/-- Stores into a register: a declaration where a name begins, else an assignment. If a copy of the value
is still on the stack, the assignment becomes part of the expression there. -/
def store (env : Setting) (reg pc : Nat) (s : Scratch) : Scratch :=
  let (value, s) := s.pop
  let isCopied := (s.stack.head?.map StackValue.id) = some value.id
  let debugName? := env.info.localAt reg (pc + 1)
  let name := env.varName reg (pc + 1)
  let init := match debugName? with
    | some v => value.expr.coerce v.type
    | none => value.expr
  if isCopied then s.pop.2.push (.assign (.var name) none init)
  else
    let plain := s.emit (.expr (.assign (if name = "this" then .this else .var name) none init))
    match debugName? with
    | some v => if v.startPc = pc + 1 then s.emit (.declare v.type name (some init)) else plain
    | none => plain

/-- Adding or taking away one is written behind the target if the target's old value is still used. -/
def stepOperator? (target old : Expr) : Expr → Option PostOp
  | .binary op lhs rhs =>
    if rhs.intValue? = some 1 && lhs.same old && lhs.same target then
      match op with
      | .add => some .inc
      | .sub => some .dec
      | _ => none
    else none
  | _ => none

/-- Stores into a field or an array element. If a copy of the value is still on the stack, the assignment
becomes part of the expression there. -/
def storeInto (env : Setting) (target : Expr) (value : StackValue) (s : Scratch) : Scratch :=
  let assigned := Expr.assignment env.compoundAssignments target value.expr
  match s.stack with
  | [] => s.emit (.expr assigned)
  | top :: _ =>
    if top.id = value.id then s.pop.2.push assigned
    else
      match stepOperator? target top.expr value.expr with
      | some op => s.replaceTop (.post op target)
      | none => s.emit (.expr assigned)

/-- The longest initializer that is put together from single stores. -/
def greatestInitializer : Nat := 4096

/-- The type, the sizes and the present values of an array expression whose size is known. -/
def arrayContents? : Expr → Option (JavaType × List Expr × List Expr)
  | .filledArray t dims values =>
    if values.length ≤ greatestInitializer then some (t, dims, values) else none
  | .newArray t [size] => do
    let n ← size.intValue?
    if 0 ≤ n && n ≤ greatestInitializer then
      some (t, [size], List.replicate n.toNat (Expr.initial t))
    else none
  | _ => none

/-- Changes the topmost value with a number, if there is one. -/
def changeValue (id : Nat) (e : Expr) : List StackValue → Option (List StackValue)
  | [] => none
  | value :: rest =>
    if value.id = id then some ({ value with expr := e } :: rest)
    else (changeValue id e rest).map (value :: ·)

/-- A store into a new array of which a copy is still on the stack becomes part of its initializer. -/
def fillElement? (array : StackValue) (position value : Expr) (s : Scratch) : Option (Checked Scratch) := do
  let (t, dims, values) ← arrayContents? array.expr
  let i ← position.intValue?
  if 0 ≤ i && i < values.length then
    let stack ← changeValue array.id (.filledArray t dims (values.set i.toNat value)) s.stack
    return if i.toNat < values.length then .ok { s with stack } else .error (.noPosition i.toNat)
  else none

def storeElement (env : Setting) (s : Scratch) : Checked Scratch :=
  let (value, s) := s.pop
  let (position, s) := s.popExpr
  let (array, s) := s.pop
  match fillElement? array position value.expr s with
  | some filled => filled
  | none => .ok (s.storeInto env (.index array.expr position) value)

def incStmt (target : Expr) (amount : Int) : Stmt :=
  if amount = 1 then .expr (.unary .preInc target)
  else if amount = -1 then .expr (.unary .preDec target)
  else if amount < 0 && amount ≠ leastInt64 then .expr (.assign target (some .sub) (.int (-amount)))
  else .expr (.assign target (some .add) (.int amount))

/-- Adds a constant to a register. One step up or down is written behind the variable if its old value is
on top of the stack. -/
def inc (env : Setting) (reg : Nat) (amount : Int) (pc : Nat) (s : Scratch) : Scratch :=
  let target := env.regExpr reg pc
  let isTop := match s.stack with
    | top :: _ => top.expr.same target
    | [] => false
  if isTop && amount = 1 then s.replaceTop (.post .inc target)
  else if isTop && amount = -1 then s.replaceTop (.post .dec target)
  else s.emit (incStmt target amount)

/-- Takes the arguments for parameters given in reverse; the arguments come in order. -/
def popArgs : List JavaType → Scratch → List Expr × Scratch
  | [], s => ([], s)
  | t :: ts, s =>
    let (arg, s) := s.popExpr
    let (args, s) := popArgs ts s
    (args ++ [arg.coerce t], s)

def changeAll (id : Nat) (e : Expr) (stack : List StackValue) : List StackValue :=
  stack.map fun value => if value.id = id then { value with expr := e } else value

/-- Calls a constructor: on `this` it is the one of the superclass, on a new object it completes the copies
that are still on the stack. -/
def construct (object : StackValue) (args : List Expr) (s : Scratch) : Scratch :=
  match object.expr with
  | .this => if args.isEmpty then s else s.emit (.superInit args)
  | .create t _ =>
    if s.stack.any fun value => value.id == object.id then
      { s with stack := changeAll object.id (.create t args) s.stack }
    else s.emit (.expr (.create t args))
  | other => s.emit (.expr (.call other "<init>" args))

def finishCall (method : MethodRef) (call : Expr) (s : Scratch) : Scratch :=
  if method.returnsVoid then s.emit (.expr call) else s.push call

def concatCall? (method : MethodRef) (args : List Expr) (s : Scratch) : Option Expr :=
  if method.name = "toString" && args.isEmpty && Expr.isStringBuilder method.owner then
    s.stack.head?.bind fun top => top.expr.concat?
  else none

def invoke (env : Setting) (method : MethodRef) (direct : Bool) (s : Scratch) : Scratch :=
  let (args, s) := popArgs method.params.reverse s
  if method.flags.isStatic then s.finishCall method (.call (.typeName method.owner) method.name args)
  else if direct then
    let (object, s) := s.pop
    if method.isConstructor then s.construct object args
    else if object.expr.same .this && method.owner ≠ env.declaringType then
      s.finishCall method (.superCall method.name args)
    else s.finishCall method (.call object.expr method.name args)
  else
    match concatCall? method args s with
    | some sum => s.pop.2.push sum
    | none =>
      let (object, s) := s.popExpr
      s.finishCall method (.call object method.name args)

/-- Reads a field or gets ready to write one: the object is the class for a static field. -/
def fieldTarget (field : FieldRef) (s : Scratch) : Expr × Scratch :=
  if field.flags.isStatic then (.field (.typeName field.owner) field.name, s)
  else
    let (object, s) := s.popExpr
    (.field object field.name, s)

def put (env : Setting) (field : FieldRef) (s : Scratch) : Scratch :=
  let (value, s) := s.pop
  let (target, s) := s.fieldTarget field
  s.storeInto env target { value with expr := value.expr.coerce field.type }

def fillArray (values : List Literal) : Expr → Expr
  | .newArray t dims | .filledArray t dims _ => .filledArray t dims (values.map (Literal.toExpr t))
  | other => other

def popStmt (form : PopForm) (s : Scratch) : Scratch :=
  let (top, s) := s.popExpr
  match form with
  | .pop => s.emit (.expr top)
  | .pop2 =>
    let (below, s) := s.popExpr
    (s.emit (.expr below)).emit (.expr top)

/-- Executes one operation on expressions. A switch only takes its value; the statement needs the graph. -/
def execute (env : Setting) (pc : Nat) (s : Scratch) : Instr → Checked Scratch
  | .arith op _ => .ok (s.mapTwo (arithExpr op))
  | .neg _ => .ok (s.mapTop (.unary .neg))
  | .compare t => .ok (s.mapTwo (.compare t))
  | .arrayLoad _ => .ok (s.mapTwo .index)
  | .arrayStore _ => s.storeElement env
  | .arrayLength => .ok (s.mapTop .length)
  | .cast _ target => .ok (s.mapTop (.cast target))
  | .instanceOf t => .ok (s.mapTop (.instanceOf · t))
  | .dup form => s.dup form
  | .pop form => .ok (s.popStmt form)
  | .swap => s.swap
  | .fillArray values => .ok (s.mapTop (fillArray values))
  | .get field =>
    let (target, s) := s.fieldTarget field
    .ok (s.push target)
  | .put field => .ok (s.put env field)
  | .goto _ | .enterSub _ | .leaveSub _ => .ok s
  | .inc _ reg amount => .ok (s.inc env reg amount pc)
  | .invoke method direct => .ok (s.invoke env method direct)
  | .jumpCompare _ relation _ =>
    let (rhs, s) := s.popExpr
    let (lhs, s) := s.popExpr
    .ok (s.emit (.branch (.binary (.ofRelation relation) lhs rhs)))
  | .jumpZero t relation _ =>
    let (value, s) := s.popExpr
    .ok (s.emit (.branch (value.zeroTest ((env.topType pc).getD t) relation)))
  | .load _ reg => .ok (s.push (env.regExpr reg pc))
  | .store _ reg => .ok (s.store env reg pc)
  | .monitor action =>
    let (object, s) := s.popExpr
    .ok (s.emit (.monitor action object))
  | .create t => .ok (s.push (.create t []))
  | .createArray t dims =>
    let (sizes, s) := popExprs dims s
    .ok (s.push (.newArray t sizes))
  | .push t value =>
    let known := match env.topType (pc + 1) with
      | some out => if out = .unknown then t else out
      | none => t
    .ok (s.push (value.toExpr known))
  | .leave t =>
    if t = .void then .ok (s.emit (.leave none))
    else
      let (value, s) := s.popExpr
      .ok (s.emit (.leave (some (value.coerce env.info.result))))
  | .switch .. => .ok s.popExpr.2
  | .raise =>
    let (e, s) := s.popExpr
    .ok (s.emit (.raise e))

end Scratch

end Unstack
