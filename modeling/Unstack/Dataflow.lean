import Unstack.Frame.Effect
import Unstack.Graph.Flow
import Unstack.Options
import Unstack.Problem

namespace Unstack

/-- The frame before the first operation: the receiver and the parameters in their registers. The second
register of a wide parameter stays undefined. -/
def MethodInfo.startFrame (m : MethodInfo) : Except FrameError Frame := do
  let receiver := m.thisReg.toList.map (·, m.owner)
  (receiver ++ m.paramRegs.zip m.params).foldlM
    (fun frame (reg, t) => frame.setReg reg (some (SymValue.ofParam reg t)))
    (Frame.empty m.regs m.maxStack)

/-- The most registers that a frame can have: each takes 48 bytes, and nothing is larger than `2 ^ 63 - 1` bytes. -/
def Frame.maxRegs : Nat := 9223372036854775807 / 48

/-- The registers of the method have room in a frame. -/
def MethodInfo.Fits (m : MethodInfo) : Prop := m.regs ≤ Frame.maxRegs

instance (m : MethodInfo) : Decidable m.Fits := inferInstanceAs (Decidable (_ ≤ _))

/-- A graph whose frames are being computed, and what the current round has changed. -/
structure Solver where
  graph : Graph
  framesChanged : Bool
  edgesChanged : Bool

/-- A step of the analysis. When it fails, what it has changed so far stays. -/
abbrev Solving (α : Type) := ExceptT AnalysisError (StateT Solver (Except Fault)) α

namespace Graph

def frameAt (g : Graph) (pc : Nat) : Checked (Option Frame) :=
  match g.frames[pc]? with
  | some frame => .ok frame
  | none => .error (.noOperation pc)

def setFrame (g : Graph) (pc : Nat) (frame : Frame) : Checked Graph :=
  if pc < g.frames.size then .ok { g with frames := g.frames.setIfInBounds pc (some frame) }
  else .error (.noOperation pc)

end Graph

namespace Solver

def getGraph : Solving Graph := return (← get).graph

def liftFrame {α : Type} (pc : Nat) : Except FrameError α → Solving α
  | .ok a => pure a
  | .error e => throw (.ofFrame pc e)

def store (pc : Nat) (frame : Frame) : Solving Unit := do
  let graph ← (← getGraph).setFrame pc frame
  modify ({ · with graph, framesChanged := true })

def arrive (pc : Nat) (frame : Frame) : Solving Unit := do
  match ← (← getGraph).frameAt pc with
  | none => store pc frame
  | some old => do
    let merged ← liftFrame pc (old.merge frame pc)
    if merged = old then pure () else store pc merged

def record (pc : Nat) (frame : Frame) : Solving Unit := do
  if (← (← getGraph).frameAt pc) = some frame then pure () else store pc frame

def linkReturn (b target : BlockId) (entry : Nat) : Solving Unit := do
  let g ← getGraph
  let outs ← g.outs b
  if outs.any fun (_, edge) => edge.target == target && edge.kind == .leaveSub entry then pure ()
  else
    let (_, graph) ← g.addEdge b target (.leaveSub entry)
    modify ({ · with graph, edgesChanged := true })

/-- Returns to one call site, which goes on with its own frame and the registers that the subroutine
wrote. -/
def returnTo (b : BlockId) (pc entry : Nat) (frame entryFrame : Frame) (site : Nat) : Solving Unit := do
  let g ← getGraph
  match ← g.frameAt site with
  | none => pure ()
  | some call =>
    match g.blockAt? (site + 1) with
    | none => throw (.unresolvedTarget pc (site + 1))
    | some target => do
      linkReturn b target entry
      arrive (site + 1) (frame.returnedTo entryFrame call)

def callSites (g : Graph) (entry : Nat) : List Nat :=
  g.ops.toList.filterMap fun o =>
    match o.instr with
    | .enterSub target => if target = entry then some o.pc else none
    | _ => none

/-- Returns to every call site of the innermost subroutine that has been reached. -/
def returnToCalls (b : BlockId) (pc : Nat) (frame : Frame) : Solving Unit := do
  match frame.subs.getLast? with
  | none => pure ()
  | some entry => do
    let g ← getGraph
    match ← g.frameAt entry with
    | none => pure ()
    | some entryFrame => (callSites g entry).forM (returnTo b pc entry frame entryFrame)

def step (b : BlockId) (o : Operation) (frame : Frame) : Solving Frame := do
  let after ← liftFrame o.pc (frame.execute o.pc o.instr)
  match o.instr with
  | .leaveSub _ => returnToCalls b o.pc frame
  | _ => pure ()
  return after

/-- Executes operations in order; gives the frame before each of them and the one after the last. -/
def run (b : BlockId) : List Operation → Frame → Solving (List Frame × Frame)
  | [], frame => return ([], frame)
  | o :: rest, frame => do
    record o.pc frame
    let next ← step b o frame
    let (frames, last) ← run b rest next
    return (frame :: frames, last)

/-- The type of the caught exception: the only one, or anything that can be thrown. -/
def caughtType : List (Option JavaType) → JavaType
  | [some t] => t
  | _ => .throwable

def handlerFrame (pc : Nat) (t : JavaType) (frame : Frame) : Except FrameError Frame :=
  let cleared := frame.clearStack
  cleared.push ⟨pc, cleared.nextSlot, t, .defined⟩

/-- Sends frames along one edge. Returns from subroutines were dealt with when they were executed. -/
def follow (frames : List Frame) (last : Frame) (edge : Edge) : Solving Unit := do
  let pc := (← (← getGraph).block edge.target).pc
  match edge.kind with
  | .handler types =>
    frames.forM fun frame => do arrive pc (← liftFrame pc (handlerFrame pc (caughtType types) frame))
  | .leaveSub _ => pure ()
  | _ => arrive pc last

def propagate (b : BlockId) : Solving Unit := do
  let g ← getGraph
  let block ← g.block b
  match ← g.frameAt block.pc with
  | none => pure ()
  | some entry => do
    let (frames, last) ← run b block.ops entry
    let outs ← (← getGraph).outs b
    outs.forM fun (_, edge) => follow frames last edge

/-- One round over all blocks; says whether anything changed. -/
def round : Solving Bool := do
  modify ({ · with framesChanged := false, edgesChanged := false })
  (← getGraph).reversePostorder.forM propagate
  let s ← get
  if s.edgesChanged then
    let graph ← s.graph.renumber
    set { s with graph }
  return s.framesChanged || s.edgesChanged

def rounds (limit : Nat) : Nat → Solving Unit
  | 0 => throw (.iterationLimit .dataflow limit)
  | left + 1 => do
    if ← round then rounds limit left else pure ()

end Solver

/-- The operation in the form that counts values, where that is another one. -/
def Instr.onValues? (frame : Frame) : Instr → Option Instr
  | .dup form => if form.onValues frame = form then none else some (.dup (form.onValues frame))
  | .pop form => if form.onValues frame = form then none else some (.pop (form.onValues frame))
  | _ => none

def replaceInstr (pc : Nat) (instr : Instr) : List Operation → List Operation
  | [] => []
  | o :: rest => if o.pc = pc then { o with instr } :: rest else o :: replaceInstr pc instr rest

namespace Graph

/-- The operations whose form counts slots, with the form that counts values. -/
def slotForms (g : Graph) : List (Nat × Instr) :=
  (g.ops.toList.zip g.frames.toList).zipIdx.filterMap fun ((o, frame), pc) => do
    return (pc, ← o.instr.onValues? (← frame))

def replaceOperation (g : Graph) (pc : Nat) (instr : Instr) : Graph :=
  { g with
    ops := g.ops.modify pc ({ · with instr })
    blocks := g.blocks.map fun block =>
      if block.removed then block else { block with ops := replaceInstr pc instr block.ops } }

def countValues (g : Graph) : Graph :=
  g.slotForms.foldl (fun g (pc, instr) => g.replaceOperation pc instr) g

/-- The analysis of a graph: the frame of the parameters arrives at the start, the rounds follow, and the forms of
`dup` and `pop` that count slots become forms that count values. -/
def analysis (g : Graph) (options : Options) : Solving Unit := do
  let frame ← Solver.liftFrame 0 g.info.startFrame
  Solver.arrive (← g.block g.start).pc frame
  Solver.rounds options.maxRounds options.maxRounds
  modify fun s => { s with graph := s.graph.countValues }

/-- Computes the frame before every reachable operation, if there is room for frames at all. Returns from
subroutines get their edges. -/
def solve (g : Graph) (options : Options) : Checked (Except AnalysisError Unit × Graph) := do
  if g.info.Fits then
    let (outcome, s) ← (g.analysis options).run.run ⟨g, false, false⟩
    return (outcome, s.graph)
  else throw (.noRoom g.info.regs)

end Graph

end Unstack
