import Unstack.Dataflow
import Unstack.Recovery.Fold
import Unstack.Recovery.Scratch
import Unstack.Recovery.SwitchLabel

namespace Unstack

/-- A graph whose blocks are being turned into statements, and the messages about it. -/
structure Draft where
  graph : Graph
  notes : List Diagnostic

/-- Everything that the reconstruction of a method depends on besides the graph. -/
structure Plan where
  facts : ClassFacts
  options : Options

namespace Plan

def setting (plan : Plan) (g : Graph) : Setting :=
  { info := g.info
    frames := g.frames
    declaringType := plan.facts.declaringType.getD g.info.owner
    compoundAssignments := plan.options.compoundAssignments }

end Plan

namespace Graph

def scratch (g : Graph) (block : Block) : Scratch := ⟨block.stack, block.stmts, g.nextValue⟩

def putScratch (g : Graph) (b : BlockId) (s : Scratch) : Checked Graph :=
  { g with nextValue := s.nextValue }.modifyBlock b fun block =>
    { block with stack := s.stack, stmts := s.stmts }

def setOps (g : Graph) (b : BlockId) (ops : List Operation) : Checked Graph :=
  g.modifyBlock b fun block => { block with ops }

/-- A handler starts with the exception on its stack. Usually its first operation stores it, which declares
the variable, or drops it. -/
def enterHandler (g : Graph) (env : Setting) (b : BlockId) : Checked Graph := do
  let block ← g.block b
  if !(← g.isHandler b) || !block.stack.isEmpty then return g
  else
    match block.ops with
    | [] => return g
    | first :: rest =>
      match first.instr with
      | .store _ reg =>
        let g ← g.setOps b rest
        let t := (env.topType first.pc).getD .throwable
        g.pushStmt b (.declare t (env.varName reg (first.pc + 1)) none)
      | .pop _ => g.setOps b rest
      | _ => g.pushValue b (.var ("e" ++ toString first.pc))

/-- The operation only moves a return address, which no expression stands for. -/
def movesReturnAddress (env : Setting) (o : Operation) : Bool :=
  match o.instr with
  | .enterSub _ => true
  | .store .. | .pop _ => env.topType o.pc == some .returnAddress
  | _ => false

def stringSwitch (g : Graph) (plan : Plan) (b : BlockId) (pc : Nat) (discriminant : Expr) :
    Checked (Expr × Graph) := do
  if plan.options.stringSwitch then
    match hashedReg? g.ops pc, discriminant with
    | some reg, .call receiver _ _ =>
      match ← g.recoverStringSwitch b reg with
      | some g => return (receiver, g)
      | none => return (discriminant, g)
    | _, _ => return (discriminant, g)
  else return (discriminant, g)

def enumSwitch (g : Graph) (plan : Plan) (b : BlockId) (pc : Nat) (discriminant : Expr) :
    Checked (Expr × Graph) := do
  if plan.options.enumSwitch then
    match discriminant.enumSwitch?, ordinalOwner? g.ops pc with
    | some switch, some enumType =>
      match ← g.recoverEnumSwitch b switch enumType plan.facts with
      | some g => return (switch.value, g)
      | none => return (discriminant, g)
    | _, _ => return (discriminant, g)
  else return (discriminant, g)

def executeOp (g : Graph) (plan : Plan) (env : Setting) (b : BlockId) (o : Operation) : Checked Graph := do
  let before := g.scratch (← g.block b)
  let g ← g.putScratch b (← before.execute env o.pc o.instr)
  match o.instr with
  | .switch .. =>
    let (discriminant, g) ← g.stringSwitch plan b o.pc before.popExpr.1
    let (discriminant, g) ← g.enumSwitch plan b o.pc discriminant
    g.pushStmt b (.switch discriminant)
  | _ => return g

/-- A message if an operation did not change the stack as it declares. -/
def balanceNote (o : Operation) (before after : Nat) : List Diagnostic :=
  if after + o.instr.takes = before + o.instr.gives then []
  else [.error (some o.pc) ("stack balance violated by " ++ o.instr.mnemonic)]

/-- Executes the remaining operations of a block, as long as its stack holds the values they need. Says
whether all of them were executed. -/
def executeOps (plan : Plan) (env : Setting) (b : BlockId) :
    List Operation → Draft → Checked (Bool × Draft)
  | [], d => return (true, d)
  | o :: rest, d => do
    if movesReturnAddress env o then
      let graph ← d.graph.setOps b rest
      executeOps plan env b rest { d with graph }
    else
      let depth := (← d.graph.block b).stack.length
      if depth < o.instr.takes then return (false, d)
      else
        let graph ← d.graph.setOps b rest
        let graph ← graph.executeOp plan env b o
        let notes := d.notes ++ balanceNote o depth (← graph.block b).stack.length
        executeOps plan env b rest { graph, notes }

/-- Turns the operations of a block into statements and says whether all of them were. -/
def convert (plan : Plan) (b : BlockId) (d : Draft) : Checked (Bool × Draft) := do
  let env := plan.setting d.graph
  let graph ← d.graph.enterHandler env b
  executeOps plan env b (← graph.block b).ops { d with graph }

end Graph

/-- A step of the reconstruction. When it fails, what it has changed so far stays. -/
abbrev Drafting (α : Type) := ExceptT AnalysisError (StateT Draft (Except Fault)) α

namespace Draft

def getGraph : Drafting Graph := return (← get).graph

def setGraph (graph : Graph) : Drafting Unit := modify ({ · with graph })

def applyOnce (fold : Graph → Checked (Option Graph)) : Drafting Bool := do
  match ← fold (← getGraph) with
  | none => return false
  | some g => do
    setGraph g
    return true

/-- Folds as long as that is possible; `left` more times are allowed. -/
def exhaust (pass : Pass) (limit : Nat) (fold : Graph → Checked (Option Graph)) : Nat → Drafting Unit
  | 0 => do
    if ← applyOnce fold then throw (.iterationLimit pass limit)
  | left + 1 => do
    if ← applyOnce fold then exhaust pass limit fold left

def foldAll (pass : Pass) (plan : Plan) (fold : Graph → BlockId → Checked (Option Graph))
    (b : BlockId) : Drafting Unit := do
  let limit := max plan.options.maxFolds (← getGraph).liveCount
  exhaust pass limit (fold · b) limit

def giveUp (b : BlockId) : Drafting Unit := do
  let d ← get
  let pc := (← d.graph.block b).ops.head?.map Operation.pc
  let graph ← d.graph.modifyBlock b fun block => { block with unreconstructed := true }
  set { d with graph, notes := d.notes ++ [Diagnostic.error pc "stack underflow"] }

/-- Reconstructs one block: folds the conditional expressions that lead to it, turns its operations into
statements, and fuses conditions that end in it. -/
def recover (plan : Plan) (b : BlockId) : Drafting Unit := do
  if (← (← getGraph).block b).removed then pure ()
  else do
    foldAll .conditional plan Graph.foldConditional b
    let (complete, d) ← Graph.convert plan b (← get)
    set d
    if complete then foldAll .shortCircuit plan Graph.fuseBranches b
    else
      match ← d.graph.foldCachedClass b with
      | some g => setGraph g
      | none => do
        giveUp b
        foldAll .shortCircuit plan Graph.fuseBranches b

end Draft

/-- Reconstructs statements and expressions for all blocks in reverse postorder, then numbers the blocks
again. -/
def Graph.reconstruct (g : Graph) (plan : Plan) (notes : List Diagnostic) :
    Checked (Except AnalysisError Unit × Draft) := do
  let work : Drafting Unit := do
    g.reversePostorder.forM (Draft.recover plan)
    Draft.setGraph (← (← Draft.getGraph).renumber)
  work.run.run { graph := g, notes }

end Unstack
