import Unstack.Graph.Edit

namespace Unstack

/-- An edge of a graph whose blocks are the numbers below `n`. -/
structure Arc (n : Nat) where
  edge : EdgeId
  source : Fin n
  target : Fin n
  kind : EdgeKind
  back : Bool

/-- The edges of a graph with all names resolved. -/
structure Flow (n : Nat) where
  outs : Vector (List (Arc n)) n
  ins : Vector (List (Arc n)) n

namespace Graph

def size (g : Graph) : Nat := g.blocks.size

def node (g : Graph) (b : BlockId) : Checked (Fin g.size) :=
  if h : b < g.size then .ok ⟨b, h⟩ else .error (.noBlock b)

def payload (g : Graph) (b : Fin g.size) : Block := have bound : b.val < g.blocks.size := b.isLt
  g.blocks[b.val]

def arc (g : Graph) (e : EdgeId) : Checked (Arc g.size) := do
  let edge ← g.edge e
  let source ← g.node edge.source
  let target ← g.node edge.target
  return { edge := e, source, target, kind := edge.kind, back := edge.back }

def flow (g : Graph) : Checked (Flow g.size) := do
  let blocks : Vector Block g.size := g.blocks.toVector
  let outs ← blocks.mapM fun block => block.outs.mapM g.arc
  let ins ← blocks.mapM fun block => block.ins.mapM g.arc
  return { outs, ins }

end Graph

/-- What a depth-first search has found: the blocks it has entered, those it has left, the latest first,
and the edges that went back to a block on its path. -/
structure Walk (n : Nat) where
  seen : List (Fin n)
  left : List (Fin n)
  back : List EdgeId

namespace Flow

variable {n : Nat}

/-- Depth-first search from a block that was not entered yet, along the path given in reverse. The path
never repeats a block, so `n` steps in depth are enough. -/
def visit (f : Flow n) : Nat → List (Fin n) → Fin n → Walk n → Walk n
  | 0, _, _, w => w
  | fuel + 1, path, b, w =>
    let done := (f.outs.get b).foldl
      (fun w arc =>
        if arc.target ∉ w.seen then f.visit fuel (b :: path) arc.target w
        else if arc.target ∈ b :: path then { w with back := arc.edge :: w.back }
        else w)
      { w with seen := b :: w.seen }
    { done with left := b :: done.left }

def walk (f : Flow n) (start : Fin n) : Walk n := f.visit n [] start ⟨[], [], []⟩

def forwardPreds (f : Flow n) (b : Fin n) : List (Fin n) :=
  ((f.ins.get b).filter fun arc => !arc.back).map Arc.source

def forwardSuccs (f : Flow n) (b : Fin n) : List (Fin n) :=
  ((f.outs.get b).filter fun arc => !arc.back).map Arc.target

/-- Searches backward for `head` from the blocks of the work list. Every block is put there once, so
`n + 1` steps are enough. -/
def findsBackward (f : Flow n) (head : Fin n) : Nat → List (Fin n) → List (Fin n) → Bool
  | 0, _, _ => false
  | _, [], _ => false
  | fuel + 1, b :: work, seen =>
    let preds := f.forwardPreds b
    if head ∈ preds then true
    else
      let fresh := (preds.filter (· ∉ seen)).eraseDups
      f.findsBackward head fuel (fresh ++ work) (fresh ++ seen)

/-- `head` reaches `b` along one or more edges that are not back edges. -/
def hasPred (f : Flow n) (b head : Fin n) : Bool := f.findsBackward head (n + 1) [b] [b]

end Flow

namespace Graph

/-- Numbers the reachable blocks in the order in which a depth-first search leaves them, and marks the
edges that go back to a block on its path. -/
def renumber (g : Graph) : Checked Graph := do
  let flow ← g.flow
  let walk := flow.walk (← g.node g.start)
  let order : List BlockId := walk.left.reverse.map Fin.val
  return { g with
    blocks := g.blocks.mapIdx fun b block =>
      match order.idxOf? b with
      | some i => { block with postorder := i }
      | none => block
    edges := g.edges.mapIdx fun e edge => { edge with back := walk.back.contains e }
    postorder := order }

/-- Removes the blocks that the start does not reach, and says how many they were. -/
def removeUnreachable (g : Graph) : Checked (Nat × Graph) := do
  let flow ← g.flow
  let reached : List BlockId := (flow.walk (← g.node g.start)).seen.map Fin.val
  let dead := (g.live.map Prod.fst).filter (!reached.contains ·)
  return (dead.length, ← dead.foldlM removeBlock g)

def reversePostorder (g : Graph) : List BlockId := g.postorder.reverse

/-- `head` reaches `b` along one or more edges that are not back edges. -/
def hasPred (g : Graph) (b head : BlockId) : Checked Bool := do
  let flow ← g.flow
  let b ← g.node b
  if h : head < g.size then return flow.hasPred b ⟨head, h⟩ else return false

end Graph

end Unstack
