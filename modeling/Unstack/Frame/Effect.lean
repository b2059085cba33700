import Unstack.Frame
import Unstack.Instr

namespace Unstack

namespace Frame

def isWideAt (f : Frame) (depth : Nat) : Bool :=
  match f.peekAt depth with
  | some v => v.type.isWide
  | none => false

/-- Drops `count` values. Only as many steps are made as there are values. -/
def popMany (f : Frame) (count : Nat) : Except FrameError Frame :=
  if f.stack.length < count then .error .underflow else .ok { f with stack := f.stack.drop count }

def define (f : Frame) (pc : Nat) (t : JavaType) : Except FrameError Frame :=
  f.push ⟨pc, f.nextSlot, t, .defined⟩

def replace (f : Frame) (pc count : Nat) (t : JavaType) : Except FrameError Frame := do
  (← f.popMany count).define pc t

end Frame

/-- The form that counts values for one that counts slots, on the stack of the given frame. -/
def DupForm.onValues (form : DupForm) (f : Frame) : DupForm :=
  match form with
  | dupX2 => if f.isWideAt 1 then dupX1 else dupX2
  | dup2 => if f.isWideAt 0 then dup else dup2
  | dup2X1 => if f.isWideAt 0 then dupX1 else dup2X1
  | dup2X2 =>
    if f.isWideAt 0 then (if f.isWideAt 1 then dupX1 else dupX2)
    else if f.isWideAt 2 then dup2X1 else dup2X2
  | other => other

def PopForm.onValues (form : PopForm) (f : Frame) : PopForm :=
  match form with
  | pop2 => if f.isWideAt 0 then pop else pop2
  | pop => pop

/-- A stack after a form of `dup` that counts values: the `count` topmost values are copied below the
`below` values under them. -/
def dupStack {α : Type} (count below : Nat) (stack : List α) : List α :=
  stack.take (count + below) ++ stack.take count ++ stack.drop (count + below)

namespace Frame

def takeMany (f : Frame) : Nat → Except FrameError (List SymValue × Frame)
  | 0 => .ok ([], f)
  | count + 1 => do
    let (value, f) ← f.pop
    let (values, f) ← f.takeMany count
    return (value :: values, f)

/-- Pushes values one by one, so that the first comes to lie on top. -/
def pushMany (f : Frame) : List SymValue → Except FrameError Frame
  | [] => .ok f
  | value :: rest => do (← f.pushMany rest).push value

/-- A form of `dup` that counts values; copies are the same value as their source. -/
def dup (f : Frame) (form : DupForm) : Except FrameError Frame := do
  let (count, below) := form.shape
  let (top, f) ← f.takeMany count
  let (under, f) ← f.takeMany below
  let f ← f.pushMany top
  let f ← f.pushMany under
  f.pushMany top

/-- The type of an array element that is loaded as `t`: what the array is known to hold, if that agrees
with computing in `int`. -/
def elementType (array : SymValue) (t : JavaType) : JavaType :=
  match array.type.elem? with
  | some elem => if !t.isIntLike || elem.isIntLike then elem else t
  | none => t

/-- The type of a register after a store through `t`. -/
def storedType (value : SymValue) (t : JavaType) : JavaType :=
  if value.type = .unknown || (value.type = .null && !t.isReference) then t else value.type

/-- Stores the top value; the second register of a wide value becomes undefined. -/
def store (f : Frame) (pc : Nat) (t : JavaType) (reg : Nat) : Except FrameError Frame := do
  let (value, f) ← f.pop
  let type := storedType value t
  let f ← f.setReg reg (some ⟨pc, reg, type, .defined⟩)
  if type.isWide && reg + 1 < f.regs.length then f.setReg (reg + 1) none else return f

/-- Pushes the value of a register, or a new one if the register is undefined. -/
def load (f : Frame) (pc : Nat) (t : JavaType) (reg : Nat) : Except FrameError Frame :=
  if f.regs.length ≤ reg then .error (.invalidRegister reg)
  else f.push ((f.reg reg).getD ⟨pc, f.nextSlot, t, .defined⟩)

/-- The frame after the operation at `pc`. The return from a subroutine leaves the frame as it is; what
the call sites get is not part of this. -/
def execute (f : Frame) (pc : Nat) : Instr → Except FrameError Frame
  | .arith _ t => f.replace pc 2 t
  | .neg t => f.replace pc 1 t
  | .arrayLoad t => do
    let (_, f) ← f.pop
    let (array, f) ← f.pop
    f.define pc (elementType array t)
  | .arrayStore _ => f.popMany 3
  | .arrayLength => f.replace pc 1 .int
  | .cast _ target => f.replace pc 1 target
  | .compare _ => f.replace pc 2 .int
  | .dup form => f.dup (form.onValues f)
  | .pop form => f.popMany (form.onValues f).count
  | .swap => do
    let (a, f) ← f.pop
    let (b, f) ← f.pop
    (← f.push a).push b
  | .fillArray _ => do
    let (array, f) ← f.pop
    f.push array
  | .get field => f.replace pc (if field.flags.isStatic then 0 else 1) field.type
  | .put field => f.popMany (if field.flags.isStatic then 1 else 2)
  | .goto _ => .ok f
  | .inc t reg _ => f.setReg reg (some ⟨pc, reg, t, .defined⟩)
  | .instanceOf _ => f.replace pc 1 .boolean
  | .invoke method direct => do
    let f ← f.popMany (Instr.invoke method direct).takes
    if method.returnsVoid then return f else f.define pc method.result
  | .jumpCompare .. => f.popMany 2
  | .jumpZero .. | .monitor _ | .switch .. | .raise => f.popMany 1
  | .enterSub target => do
    return (← f.push ⟨pc, f.nextSlot, .returnAddress, .subroutine⟩).pushSub target
  | .leaveSub reg => if f.regs.length ≤ reg then .error (.invalidRegister reg) else .ok f
  | .load t reg => f.load pc t reg
  | .store t reg => f.store pc t reg
  | .create t => f.define pc t
  | .createArray t dims => f.replace pc dims (.array t)
  | .push t value =>
    f.define pc (match value with
      | .null => .null
      | _ => t)
  | .leave t => if t = .void then .ok f else f.popMany 1

end Frame

end Unstack
