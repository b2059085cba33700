import Unstack.Member
import Unstack.Number.Binary64

namespace Unstack

inductive Literal where
  | null
  | bool (value : Bool)
  | int (value : Int)
  | float (value : Binary64)
  | classOf (type : JavaType)
  | string (value : String)
  deriving Inhabited

inductive Relation where
  | eq
  | ne
  | lt
  | ge
  | gt
  | le
  deriving DecidableEq, Inhabited

def Relation.negate : Relation → Relation
  | eq => ne
  | ne => eq
  | lt => ge
  | ge => lt
  | gt => le
  | le => gt

inductive DupForm where
  | dup
  | dupX1
  | dupX2
  | dup2
  | dup2X1
  | dup2X2
  deriving DecidableEq, Inhabited

/-- How many values are copied, and how many lie between the copies and their sources. -/
def DupForm.shape : DupForm → Nat × Nat
  | dup => (1, 0)
  | dupX1 => (1, 1)
  | dupX2 => (1, 2)
  | dup2 => (2, 0)
  | dup2X1 => (2, 1)
  | dup2X2 => (2, 2)

inductive PopForm where
  | pop
  | pop2
  deriving DecidableEq, Inhabited

def PopForm.count : PopForm → Nat
  | pop => 1
  | pop2 => 2

inductive MonitorAction where
  | enter
  | exit
  deriving DecidableEq, Inhabited

inductive Arith where
  | add
  | sub
  | mul
  | div
  | rem
  | and
  | or
  | xor
  | shl
  | shr
  | ushr
  deriving DecidableEq, Inhabited

/-- What one operation of a method does. Jump targets are indexes of operations. The stack is counted in
values: a `long` is one value. The forms of `dup` and `pop` that count slots are replaced once it is known
which values are wide. -/
inductive Instr where
  | arith (op : Arith) (t : JavaType)
  | neg (t : JavaType)
  | arrayLoad (t : JavaType)
  | arrayStore (t : JavaType)
  | arrayLength
  | cast (source target : JavaType)
  /-- Three-way comparison of two numbers, which pushes -1, 0 or 1. -/
  | compare (t : JavaType)
  | dup (form : DupForm)
  | pop (form : PopForm)
  | swap
  /-- Fills the array on top of the stack with constants and leaves it there. -/
  | fillArray (values : List Literal)
  | get (field : FieldRef)
  | put (field : FieldRef)
  | goto (target : Nat)
  | inc (t : JavaType) (reg : Nat) (amount : Int)
  | instanceOf (t : JavaType)
  /-- A call; `direct` ones are not dispatched: constructors, private methods, methods of the superclass. -/
  | invoke (method : MethodRef) (direct : Bool)
  | jumpCompare (t : JavaType) (relation : Relation) (target : Nat)
  /-- Compares one stack value with zero or `null` and jumps. -/
  | jumpZero (t : JavaType) (relation : Relation) (target : Nat)
  | enterSub (target : Nat)
  /-- Returns from a subroutine through the address in a register. -/
  | leaveSub (reg : Nat)
  | load (t : JavaType) (reg : Nat)
  | store (t : JavaType) (reg : Nat)
  | monitor (action : MonitorAction)
  | create (t : JavaType)
  /-- Creates an array with elements of type `t`, which takes one size per dimension. -/
  | createArray (t : JavaType) (dims : Nat)
  | push (t : JavaType) (value : Literal)
  | leave (t : JavaType)
  | switch (keys : List Int) (targets : List Nat) (fallback : Nat)
  | raise
  deriving Inhabited

namespace Instr

def takes : Instr → Nat
  | arith .. | compare _ | arrayLoad _ | jumpCompare .. | swap => 2
  | neg _ | arrayLength | cast .. | fillArray _ | instanceOf _ | jumpZero .. | store .. | monitor _
  | switch .. | raise => 1
  | arrayStore _ => 3
  | dup form => form.shape.1 + form.shape.2
  | pop form => form.count
  | get field => if field.flags.isStatic then 0 else 1
  | put field => if field.flags.isStatic then 1 else 2
  | invoke method _ => method.params.length + if method.flags.isStatic then 0 else 1
  | leave t => if t = .void then 0 else 1
  | createArray _ dims => dims
  | goto _ | inc .. | enterSub _ | leaveSub _ | load .. | create _ | push .. => 0

def gives : Instr → Nat
  | arith .. | neg _ | compare _ | arrayLoad _ | arrayLength | cast .. | fillArray _ | get _
  | instanceOf _ | enterSub _ | load .. | create _ | createArray .. | push .. => 1
  | swap => 2
  | dup form => 2 * form.shape.1 + form.shape.2
  | invoke method _ => if method.returnsVoid then 0 else 1
  | arrayStore _ | pop _ | put _ | goto _ | inc .. | jumpCompare .. | jumpZero .. | leaveSub _
  | store .. | monitor _ | leave _ | switch .. | raise => 0

def endsFlow : Instr → Bool
  | goto _ | leave _ | raise | switch .. | leaveSub _ | enterSub _ => true
  | _ => false

def endsBlock : Instr → Bool
  | jumpCompare .. | jumpZero .. | monitor _ => true
  | i => i.endsFlow

def targets : Instr → List Nat
  | goto target | jumpCompare _ _ target | jumpZero _ _ target | enterSub target => [target]
  | switch _ targets fallback => targets ++ [fallback]
  | _ => []

end Instr

/-- An operation of a method with its index, the opcode it was read from and its source line, -1 if that
is not known. -/
structure Operation where
  pc : Nat
  opcode : UInt16
  line : Int
  instr : Instr
  deriving Inhabited

end Unstack
