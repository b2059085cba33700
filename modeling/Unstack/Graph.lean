import Unstack.Frame
import Unstack.Method
import Unstack.Region
import Unstack.Stmt

namespace Unstack

/-- A value on the expression stack of a block. Copies of a value share its number, by which a store
recognises that its value is used once more. -/
structure StackValue where
  id : Nat
  expr : Expr
  deriving Inhabited

/-- A basic block: operations that are entered at the first and left at the last. -/
structure Block where
  pc : Nat
  /-- Source line of the first operation, or -1. -/
  line : Int
  /-- Operations that are not reconstructed yet. -/
  ops : List Operation
  stmts : List Stmt
  /-- Values that the statements leave, top first. -/
  stack : List StackValue
  postorder : Nat
  ins : List EdgeId
  outs : List EdgeId
  /-- Reconstruction stopped before the end of the block. -/
  unreconstructed : Bool
  removed : Bool
  deriving Inhabited

def Block.lastStmt? (b : Block) : Option Stmt := b.stmts.getLast?

def Block.top? (b : Block) : Option StackValue := b.stack.head?

/-- The control flow graph of a method. Blocks and edges are never deleted, only marked as removed, so
that their names stay valid. -/
structure Graph where
  info : MethodInfo
  ops : Array Operation
  frames : Array (Option Frame)
  regions : List Region
  blocks : Array Block
  edges : Array Edge
  start : BlockId
  /-- Reachable blocks in the order in which the last depth-first search left them. -/
  postorder : List BlockId
  nextValue : Nat
  deriving Inhabited

inductive Fault where
  | noBlock (b : BlockId)
  | noEdge (e : EdgeId)
  | noOperation (pc : Nat)
  | noPosition (i : Nat)
  /-- A search that does not come to an end. -/
  | endless
  /-- A frame of so many registers is larger than anything can be. -/
  | noRoom (regs : Nat)
  deriving DecidableEq

/-- A result that depends on names and indexes which may stand for nothing. -/
abbrev Checked (α : Type) := Except Fault α

namespace Graph

def empty (info : MethodInfo) (ops : List Operation) : Graph :=
  { info, ops := ops.toArray, frames := Array.replicate ops.length none, regions := [], blocks := #[],
    edges := #[], start := 0, postorder := [], nextValue := 0 }

def block (g : Graph) (b : BlockId) : Checked Block :=
  match g.blocks[b]? with
  | some block => .ok block
  | none => .error (.noBlock b)

def edge (g : Graph) (e : EdgeId) : Checked Edge :=
  match g.edges[e]? with
  | some edge => .ok edge
  | none => .error (.noEdge e)

def live (g : Graph) : List (BlockId × Block) :=
  g.blocks.toList.zipIdx.filterMap fun (block, b) => if block.removed then none else some (b, block)

def liveCount (g : Graph) : Nat := g.live.length

def blockAt? (g : Graph) (pc : Nat) : Option BlockId :=
  (g.live.find? fun (_, block) => block.pc == pc).map Prod.fst

def lineAt (g : Graph) (pc : Nat) : Int :=
  match g.ops[pc]? with
  | some o => o.line
  | none => -1

def outs (g : Graph) (b : BlockId) : Checked (List (EdgeId × Edge)) := do
  (← g.block b).outs.mapM fun e => do return (e, ← g.edge e)

def ins (g : Graph) (b : BlockId) : Checked (List (EdgeId × Edge)) := do
  (← g.block b).ins.mapM fun e => do return (e, ← g.edge e)

def preds (g : Graph) (b : BlockId) : Checked (List BlockId) := do
  return (← g.ins b).map fun (_, edge) => edge.source

def succs (g : Graph) (b : BlockId) : Checked (List BlockId) := do
  return (← g.outs b).map fun (_, edge) => edge.target

def targetOf (g : Graph) (kind : EdgeKind) (b : BlockId) : Checked (Option BlockId) := do
  return ((← g.outs b).find? fun (_, edge) => edge.kind == kind).map fun (_, edge) => edge.target

def succ (g : Graph) (b : BlockId) : Checked (Option BlockId) := g.targetOf .sequence b

def trueSucc (g : Graph) (b : BlockId) : Checked (Option BlockId) := g.targetOf .whenTrue b

def falseSucc (g : Graph) (b : BlockId) : Checked (Option BlockId) := g.targetOf .whenFalse b

def fallbackOut (g : Graph) (b : BlockId) : Checked (Option (EdgeId × Edge)) := do
  return (← g.outs b).find? fun (_, edge) => edge.kind.isFallback

def isCond (g : Graph) (b : BlockId) : Checked Bool := do
  let ends := match (← g.block b).lastStmt? with
    | some stmt => stmt.isBranch
    | none => false
  return ends && (← g.trueSucc b).isSome && (← g.falseSucc b).isSome

def isHandler (g : Graph) (b : BlockId) : Checked Bool := do
  return (← g.ins b).any fun (_, edge) => edge.kind.isHandler

def isLoopHead (g : Graph) (b : BlockId) : Checked Bool := do
  return (← g.ins b).any fun (_, edge) => edge.back

def isSwitchHead (g : Graph) (b : BlockId) : Checked Bool := do
  match (← g.block b).lastStmt? with
  | some stmt => return stmt.isSwitch
  | none => return false

def isSyncHead (g : Graph) (b : BlockId) : Checked Bool := do
  match (← g.block b).lastStmt? with
  | some stmt => return stmt.monitor? == some .enter
  | none => return false

end Graph

def Block.isBefore (a b : Block) : Bool := a.line < b.line || (a.line == b.line && a.pc ≤ b.pc)

def Graph.isBefore (g : Graph) (a : BlockId) : Option BlockId → Checked Bool
  | none => .ok true
  | some b => do return (← g.block a).isBefore (← g.block b)

end Unstack
