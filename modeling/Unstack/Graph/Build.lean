import Unstack.Graph.Flow
import Unstack.Problem

namespace Unstack

abbrev Building (α : Type) := ExceptT AnalysisError (Except Fault) α

/-- What leaves a block, as recorded before all blocks are known. -/
inductive Link where
  | sequence (target : Nat)
  | cond (target next : Nat)
  | switch (cases : List (Nat × CaseLabel))
  | enterSub (target : Nat)

/-- The scan over the operations of a method: which of them start a block, the block of each that was
scanned, the links that were met, and the block that is still open. -/
structure Scan where
  graph : Graph
  leaders : List Nat
  blockOf : Array (Option BlockId)
  links : List (BlockId × Nat × Link)
  current : Option BlockId

namespace MethodInput

def checkTargets (m : MethodInput) : Except AnalysisError Unit :=
  m.ops.zipIdx.forM fun (o, pc) =>
    match o.instr.targets.find? (m.ops.length ≤ ·) with
    | some target => .error (.unresolvedTarget pc target)
    | none => .ok ()

def rangeFits (m : MethodInput) (r : ExceptionRange) : Bool :=
  r.startPc < r.endPc && r.endPc ≤ m.ops.length && r.handlerPc < m.ops.length

def checkRanges (m : MethodInput) : Except AnalysisError Unit :=
  m.exceptions.forM fun r =>
    if m.rangeFits r then .ok () else .error (.malformedRange r.startPc r.endPc r.handlerPc)

def numbered (m : MethodInput) : List Operation := m.ops.zipIdx.map fun (o, pc) => { o with pc }

/-- The operations that start a block whatever is found later: the first one and the borders and handlers
of exception ranges. -/
def knownLeaders (m : MethodInput) : List Nat :=
  0 :: m.exceptions.flatMap fun r =>
    [r.startPc, r.handlerPc] ++ if r.endPc < m.ops.length then [r.endPc] else []

end MethodInput

/-- What leaves the block that an operation ends, none if nothing does. -/
def Instr.link? (pc : Nat) : Instr → Option Link
  | .goto target => some (.sequence target)
  | .jumpCompare _ _ target | .jumpZero _ _ target => some (.cond target (pc + 1))
  | .switch keys targets fallback =>
    some (.switch ((targets.zip (keys.map CaseLabel.int)) ++ [(fallback, .fallback)]))
  | .enterSub target => some (.enterSub target)
  | .monitor _ => some (.sequence (pc + 1))
  | _ => none

namespace Scan

def setOwner (owners : Array (Option BlockId)) (b : BlockId) (o : Operation) :
    Checked (Array (Option BlockId)) :=
  if o.pc < owners.size then .ok (owners.setIfInBounds o.pc (some b)) else .error (.noOperation o.pc)

def addLeader (s : Scan) (pc : Nat) : Scan :=
  if s.leaders.contains pc then s else { s with leaders := pc :: s.leaders }

/-- Makes a scanned operation the first of a block. The block that holds it keeps its name for what comes
after; what comes before goes to a new block. -/
def splitAt (s : Scan) (pc : Nat) : Checked Scan := do
  match s.blockOf[pc]? with
  | none => .error (.noOperation pc)
  | some none => return s
  | some (some b) =>
    if (← s.graph.block b).pc = pc then return s
    else
      let (pred, graph) ← s.graph.splitPred b pc
      let blockOf ← (← graph.block pred).ops.foldlM (setOwner · pred) s.blockOf
      return { s with graph, blockOf }

/-- Takes note of a jump target. One that was scanned already starts a block from now on. -/
def reach (pc : Nat) (s : Scan) (target : Nat) : Checked Scan :=
  if pc < target then .ok (s.addLeader target)
  else if s.leaders.contains target then .ok s
  else (s.addLeader target).splitAt target

/-- The block for the operation at `pc`: the open one, or a new one if there is none or the operation
starts a block. -/
def blockFor (s : Scan) (pc : Nat) : BlockId × Scan :=
  match s.current with
  | none => let (b, graph) := s.graph.newBlock pc; (b, { s with graph })
  | some prev =>
    if s.leaders.contains pc then
      let (b, graph) := s.graph.newBlock pc
      (b, { s with graph, links := s.links ++ [(prev, pc - 1, .sequence pc)] })
    else (prev, s)

def step (size : Nat) (s : Scan) (o : Operation) : Checked Scan := do
  let (b, s) := s.blockFor o.pc
  let graph ← s.graph.modifyBlock b fun block => { block with ops := block.ops ++ [o] }
  let s := { s with graph, blockOf := ← setOwner s.blockOf b o }
  let s ← o.instr.targets.foldlM (reach o.pc) s
  if o.instr.endsBlock then
    let s := if o.pc + 1 < size then s.addLeader (o.pc + 1) else s
    let links := match o.instr.link? o.pc with
      | some link => s.links ++ [(b, o.pc, link)]
      | none => s.links
    return { s with links, current := none }
  else return { s with current := some b }

/-- An operation that is last and does not end the flow goes on behind the end of the method. -/
def close (size : Nat) (s : Scan) : Scan :=
  match s.current with
  | some b => { s with links := s.links ++ [(b, size - 1, .sequence size)], current := none }
  | none => s

def resolve (blockOf : Array (Option BlockId)) (pc target : Nat) : Building BlockId :=
  match blockOf[target]?.join with
  | some b => pure b
  | none => throw (.unresolvedTarget pc target)

/-- Cases with the same target together, the labels in the order in which they stand. -/
def groupCases : List (Nat × CaseLabel) → List (Nat × List CaseLabel)
  | [] => []
  | (target, label) :: rest =>
    match groupCases rest with
    | [] => [(target, [label])]
    | (next, labels) :: groups =>
      if target = next then (next, label :: labels) :: groups else (target, [label]) :: (next, labels) :: groups

def connect (blockOf : Array (Option BlockId)) (g : Graph) : BlockId × Nat × Link → Building Graph
  | (b, pc, .sequence target) => do
    let dest ← resolve blockOf pc target
    return (← g.setSucc b dest).2
  | (b, pc, .cond target next) => do
    let whenTrue ← resolve blockOf pc target
    let whenFalse ← resolve blockOf pc next
    g.setConds b whenTrue whenFalse
  | (b, pc, .switch cases) => do
    let sorted := cases.mergeSort fun x y => x.1 ≤ y.1
    (groupCases sorted).foldlM
      (fun g (target, labels) => do
        let dest ← resolve blockOf pc target
        return (← g.addSwitchCase b dest labels).2)
      g
  | (b, pc, .enterSub target) => do
    let dest ← resolve blockOf pc target
    return (← g.addEdge b dest (.enterSub target)).2

/-- Adds the handler of a range to every block that lies inside the range. -/
def cover (blockOf : Array (Option BlockId)) (g : Graph) (r : ExceptionRange) : Building Graph := do
  let handler ← resolve blockOf r.startPc r.handlerPc
  let covered := g.live.filter fun (_, block) =>
    let last := match block.ops.getLast? with
      | some o => o.pc
      | none => block.pc
    r.startPc ≤ block.pc && last < r.endPc
  covered.foldlM (fun g (b, _) => do return (← g.addHandler b handler r.catchType).2) g

end Scan

/-- The control flow graph of a method: operations in blocks, edges with their kinds, blocks numbered. -/
def Graph.ofMethod (m : MethodInput) : Building Graph := do
  if m.ops.isEmpty then throw .emptyMethod
  ExceptT.mk (.ok m.checkTargets)
  ExceptT.mk (.ok m.checkRanges)
  let size := m.ops.length
  let ops := m.numbered
  let first : Scan :=
    { graph := Graph.empty m.info ops, leaders := m.knownLeaders, blockOf := Array.replicate size none,
      links := [], current := none }
  let scanned ← (ops.foldlM (Scan.step size) first : Checked Scan)
  let scan := scanned.close size
  let g ← scan.links.foldlM (Scan.connect scan.blockOf) scan.graph
  let g ← m.exceptions.foldlM (Scan.cover scan.blockOf) g
  let start ← Scan.resolve scan.blockOf 0 0
  Graph.renumber { g with start }
end Unstack
