import Unstack.Graph

namespace Unstack.Graph

def modifyBlock (g : Graph) (b : BlockId) (change : Block → Block) : Checked Graph :=
  if b < g.blocks.size then .ok { g with blocks := g.blocks.modify b change } else .error (.noBlock b)

def modifyEdge (g : Graph) (e : EdgeId) (change : Edge → Edge) : Checked Graph :=
  if e < g.edges.size then .ok { g with edges := g.edges.modify e change } else .error (.noEdge e)

def newBlock (g : Graph) (pc : Nat) : BlockId × Graph :=
  let block : Block :=
    { pc, line := g.lineAt pc, ops := [], stmts := [], stack := [], postorder := 0, ins := [], outs := [],
      unreconstructed := false, removed := false }
  (g.blocks.size, { g with blocks := g.blocks.push block })

def newValue (g : Graph) (expr : Expr) : StackValue × Graph :=
  (⟨g.nextValue, expr⟩, { g with nextValue := g.nextValue + 1 })

def pushValue (g : Graph) (b : BlockId) (expr : Expr) : Checked Graph :=
  let (value, g) := g.newValue expr
  g.modifyBlock b fun block => { block with stack := value :: block.stack }

def pushStmt (g : Graph) (b : BlockId) (stmt : Stmt) : Checked Graph :=
  g.modifyBlock b fun block => { block with stmts := block.stmts ++ [stmt] }

def addEdge (g : Graph) (source target : BlockId) (kind : EdgeKind) : Checked (EdgeId × Graph) := do
  let e := g.edges.size
  let g := { g with edges := g.edges.push { source, target, kind, back := false, removed := false } }
  let g ← g.modifyBlock source fun block => { block with outs := block.outs ++ [e] }
  let g ← g.modifyBlock target fun block => { block with ins := block.ins ++ [e] }
  return (e, g)

def removeEdge (g : Graph) (e : EdgeId) : Checked Graph := do
  let edge ← g.edge e
  if edge.removed then return g
  else
    let g ← g.modifyBlock edge.source fun block => { block with outs := block.outs.filter (· != e) }
    let g ← g.modifyBlock edge.target fun block => { block with ins := block.ins.filter (· != e) }
    g.modifyEdge e fun edge => { edge with removed := true }

def removeEdges (g : Graph) (edges : List EdgeId) : Checked Graph := edges.foldlM removeEdge g

/-- Which edges give way, the latest edge first: of two edges of one kind the earlier, and a sequence edge
also to a later conditional one. The flags say which kinds were met. -/
def staleOuts : Bool → Bool → Bool → List (EdgeId × Edge) → List EdgeId
  | _, _, _, [] => []
  | seq, yes, no, (e, edge) :: rest =>
    match edge.kind with
    | .sequence => (if seq || yes || no then [e] else []) ++ staleOuts true yes no rest
    | .whenTrue => (if yes then [e] else []) ++ staleOuts seq true no rest
    | .whenFalse => (if no then [e] else []) ++ staleOuts seq yes true rest
    | _ => staleOuts seq yes no rest

/-- Keeps at most one sequence edge and one edge for each value of a condition, the latest ones. -/
def cleanupOuts (g : Graph) (b : BlockId) : Checked Graph := do
  g.removeEdges (staleOuts false false false (← g.outs b).reverse)

def setSucc (g : Graph) (b dest : BlockId) : Checked (EdgeId × Graph) := do
  let (e, g) ← g.addEdge b dest .sequence
  return (e, ← g.cleanupOuts b)

/-- Sets the two successors of a branch. The edge to the lower index comes first. -/
def setConds (g : Graph) (b whenTrue whenFalse : BlockId) : Checked Graph := do
  let falseFirst := (← g.block whenFalse).pc ≤ (← g.block whenTrue).pc
  let (_, g) ← if falseFirst then g.addEdge b whenFalse .whenFalse else g.addEdge b whenTrue .whenTrue
  let (_, g) ← if falseFirst then g.addEdge b whenTrue .whenTrue else g.addEdge b whenFalse .whenFalse
  g.cleanupOuts b

def addSwitchCase (g : Graph) (b target : BlockId) (labels : List CaseLabel) : Checked (EdgeId × Graph) :=
  g.addEdge b target (.switchCase labels)

def catching (t : Option JavaType) : EdgeKind → EdgeKind
  | .handler types => .handler (if types.contains t then types else types ++ [t])
  | kind => kind

/-- Lets a block be covered by a handler; one edge to a handler holds all types. -/
def addHandler (g : Graph) (b handler : BlockId) (t : Option JavaType) : Checked (EdgeId × Graph) := do
  match (← g.outs b).find? fun (_, edge) => edge.target == handler && edge.kind.isHandler with
  | some (e, _) => return (e, ← g.modifyEdge e fun edge => { edge with kind := catching t edge.kind })
  | none => g.addEdge b handler (.handler [t])

def removeBlock (g : Graph) (b : BlockId) : Checked Graph := do
  let block ← g.block b
  let g ← g.removeEdges (block.ins ++ block.outs)
  g.modifyBlock b fun block => { block with removed := true }

def turnEdge (g : Graph) (dest : BlockId) (e : EdgeId) : Checked Graph := do
  let g ← g.modifyEdge e fun edge => { edge with target := dest }
  g.modifyBlock dest fun block => { block with ins := block.ins ++ [e] }

/-- Lets everything that enters `source` enter `dest`, the start of the method included. -/
def moveIns (g : Graph) (source dest : BlockId) : Checked Graph := do
  let entering := (← g.block source).ins
  let g ← g.modifyBlock source fun block => { block with ins := [] }
  let g ← entering.foldlM (turnEdge · dest) g
  return if g.start = source then { g with start := dest } else g

/-- Puts `pred` in front of `b`: what `pred` holds comes first, what entered it enters `b`, and it is
removed. -/
def joinPred (g : Graph) (b pred : BlockId) : Checked Graph := do
  let front ← g.block pred
  let g ← g.modifyBlock pred fun block => { block with ops := [], stmts := [], stack := [] }
  let g ← g.modifyBlock b fun block =>
    { block with
      ops := front.ops ++ block.ops
      stmts := front.stmts ++ block.stmts
      stack := block.stack ++ front.stack
      pc := front.pc
      line := front.line
      unreconstructed := block.unreconstructed || front.unreconstructed }
  let g ← g.moveIns pred b
  g.removeBlock pred

/-- Moves the operations before `pc` into a new block in front. The block keeps its name and its outgoing
edges, and what entered it enters the new one. -/
def splitPred (g : Graph) (b : BlockId) (pc : Nat) : Checked (BlockId × Graph) := do
  let whole ← g.block b
  let (pred, g) := g.newBlock whole.pc
  let before := whole.ops.takeWhile fun o => o.pc < pc
  let g ← g.modifyBlock pred fun block => { block with ops := before }
  let g ← g.modifyBlock b fun block => { block with ops := whole.ops.dropWhile fun o => o.pc < pc }
  let g ← g.moveIns b pred
  let (_, g) ← g.setSucc pred b
  let line := g.lineAt pc
  let g ← g.modifyBlock b fun block => { block with pc := pc, line := line }
  return (pred, g)

end Unstack.Graph
