import Unstack.Instr

namespace Unstack

/-- The name of a register over a range of indexes, from debug information. -/
structure LocalVar where
  reg : Nat
  name : String
  type : JavaType
  /-- The first index at which the name holds, which is the one after the defining store. -/
  startPc : Nat
  /-- The index at which it ends, excluded. -/
  endPc : Nat
  deriving DecidableEq, Inhabited

def LocalVar.covers (v : LocalVar) (pc : Nat) : Bool := v.startPc ≤ pc && pc < v.endPc

structure ExceptionRange where
  startPc : Nat
  endPc : Nat
  handlerPc : Nat
  /-- None catches everything. -/
  catchType : Option JavaType
  deriving DecidableEq, Inhabited

/-- What is known about a method apart from its operations. -/
structure MethodInfo where
  name : String
  owner : JavaType
  regs : Nat
  /-- Zero means that the stack is not bounded, as for the code of a register machine. -/
  maxStack : Nat
  isStatic : Bool
  params : List JavaType
  result : JavaType
  locals : List LocalVar
  deriving DecidableEq, Inhabited

namespace MethodInfo

def unknownOwner : JavaType := .object "Unknown"

def plain (name : String) (regs maxStack : Nat) : MethodInfo :=
  { name, owner := unknownOwner, regs, maxStack, isStatic := true, params := [], result := .void,
    locals := [] }

/-- The code comes from a register machine: there is no stack limit, and the parameters are in the last
registers. -/
def isRegisterMachine (m : MethodInfo) : Bool := m.maxStack == 0

def localAt (m : MethodInfo) (reg pc : Nat) : Option LocalVar :=
  m.locals.find? fun v => v.reg == reg && v.covers pc

def receiverWidth (m : MethodInfo) : Nat := if m.isStatic then 0 else 1

def slots : List JavaType → Nat
  | [] => 0
  | t :: ts => t.slotCount + slots ts

def width (m : MethodInfo) : Nat := slots m.params + m.receiverWidth

def firstParamReg (m : MethodInfo) : Nat := if m.isRegisterMachine then m.regs - m.width else 0

/-- The first registers of values of the given types that lie side by side from `reg` on. -/
def layout : Nat → List JavaType → List Nat
  | _, [] => []
  | reg, t :: ts => reg :: layout (reg + t.slotCount) ts

/-- The register of each declared parameter, `this` excluded. -/
def paramRegs (m : MethodInfo) : List Nat := layout (m.firstParamReg + m.receiverWidth) m.params

def thisReg (m : MethodInfo) : Option Nat := if m.isStatic then none else some m.firstParamReg

end MethodInfo

structure MethodInput where
  info : MethodInfo
  ops : List Operation
  exceptions : List ExceptionRange
  deriving Inhabited

end Unstack
