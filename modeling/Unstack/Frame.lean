import Unstack.JavaType

namespace Unstack

/-- Where a symbolic value comes from. -/
inductive Origin where
  | defined
  /-- Join of different values that arrive at the value's index. -/
  | merged
  | param
  | subroutine
  deriving DecidableEq, Inhabited

/-- A symbolic value in a register or on the stack: the index and the slot at which it was defined, its
type and its origin. The slots of the stack are numbered after the registers, bottom first. -/
structure SymValue where
  pc : Nat
  slot : Nat
  type : JavaType
  origin : Origin
  deriving DecidableEq, Inhabited

namespace SymValue

def ofParam (reg : Nat) (t : JavaType) : SymValue := ⟨0, reg, t, .param⟩

def isMerged (v : SymValue) : Bool := v.origin == .merged

/-- The value of a slot where two values meet: the common one, or one that is defined by the join. -/
def merge (pc slot : Nat) (a b : SymValue) : SymValue :=
  if a = b then a else ⟨pc, slot, a.type.join b.type, .merged⟩

def tag (v : SymValue) : String :=
  match v.origin with
  | .defined => "c"
  | .merged => "m"
  | .param => "p"
  | .subroutine => "s"

def text (v : SymValue) : String := v.type.text ++ ":" ++ v.tag ++ toString v.pc

end SymValue

inductive FrameError where
  | underflow
  | overflow (max : Nat)
  | invalidRegister (reg : Nat)
  | depthMismatch (left right : Nat)
  deriving DecidableEq

def FrameError.message : FrameError → String
  | underflow => "operand stack underflow"
  | overflow max => "operand stack overflow (max " ++ toString max ++ ")"
  | invalidRegister reg => "register r" ++ toString reg ++ " out of range"
  | depthMismatch left right =>
    "stack depth mismatch at join (" ++ toString left ++ " vs " ++ toString right ++ ")"

structure Frame where
  regs : List (Option SymValue)
  /-- Top of the stack first. -/
  stack : List SymValue
  /-- Entries of the subroutines that are being executed, the outermost first. -/
  subs : List Nat
  /-- Zero leaves the stack unbounded. -/
  maxStack : Nat
  deriving DecidableEq, Inhabited

namespace Frame

def empty (regs maxStack : Nat) : Frame := ⟨List.replicate regs none, [], [], maxStack⟩

/-- The value of a register, none if it is undefined or does not exist. -/
def reg (f : Frame) (r : Nat) : Option SymValue := (f.regs[r]?).join

def setReg (f : Frame) (r : Nat) (value : Option SymValue) : Except FrameError Frame :=
  if r < f.regs.length then .ok { f with regs := f.regs.set r value } else .error (.invalidRegister r)

def nextSlot (f : Frame) : Nat := f.regs.length + f.stack.length

def push (f : Frame) (value : SymValue) : Except FrameError Frame :=
  if f.maxStack ≠ 0 && f.maxStack ≤ f.stack.length then .error (.overflow f.maxStack)
  else .ok { f with stack := value :: f.stack }

def pop (f : Frame) : Except FrameError (SymValue × Frame) :=
  match f.stack with
  | [] => .error .underflow
  | top :: rest => .ok (top, { f with stack := rest })

def peekAt (f : Frame) (depth : Nat) : Option SymValue := f.stack[depth]?

def peek (f : Frame) : Option SymValue := f.peekAt 0

def clearStack (f : Frame) : Frame := { f with stack := [] }

def pushSub (f : Frame) (entry : Nat) : Frame := { f with subs := f.subs ++ [entry] }

def popSub (f : Frame) : Option Nat × Frame := (f.subs.getLast?, { f with subs := f.subs.dropLast })

/-- The frame that a call site goes on with after a subroutine returns, from the frame `f` at the return,
the one at the subroutine's `entry` and the one before the `call`. A register that still holds its value
from the entry was not written by the subroutine, so it keeps the call site's value. -/
def returnedTo (f entry call : Frame) : Frame :=
  { f with
    regs := f.regs.mapIdx fun r value => if value = entry.reg r then call.reg r else value
    subs := call.subs }

/-- Registers where two frames meet: defined where both are. -/
def mergeRegs (pc : Nat) : Nat → List (Option SymValue) → List (Option SymValue) → List (Option SymValue)
  | slot, a :: as, b :: bs =>
    (match a, b with
      | some a, some b => some (a.merge pc slot b)
      | _, _ => none) :: mergeRegs pc (slot + 1) as bs
  | _, _, _ => []

/-- Stacks where two frames meet; the slot of a value is the number of values below it after `base`. -/
def mergeStack (pc base : Nat) : List SymValue → List SymValue → List SymValue
  | a :: as, b :: bs => SymValue.merge pc (base + as.length) a b :: mergeStack pc base as bs
  | _, _ => []

def commonStart : List Nat → List Nat → List Nat
  | a :: as, b :: bs => if a = b then a :: commonStart as bs else []
  | _, _ => []

def merge (f other : Frame) (pc : Nat) : Except FrameError Frame :=
  if f.stack.length ≠ other.stack.length then .error (.depthMismatch f.stack.length other.stack.length)
  else if f = other then .ok f
  else .ok
    { f with
      regs := mergeRegs pc 0 f.regs other.regs
      stack := mergeStack pc f.regs.length f.stack other.stack
      subs := commonStart f.subs other.subs }

def listText (items : List String) : String := String.intercalate ", " items

/-- Registers in brackets, the stack from its bottom in braces, and the subroutines if there are any. -/
def text (f : Frame) : String :=
  let regs := f.regs.map fun r =>
    match r with
    | some v => v.text
    | none => "-"
  "[" ++ listText regs ++ "] \x7b" ++ listText (f.stack.reverse.map SymValue.text) ++ "\x7d" ++
    if f.subs.isEmpty then "" else " subs=[" ++ listText (f.subs.map fun s => toString s) ++ "]"

end Frame

end Unstack
