import Unstack.Graph.Flow

namespace Unstack

/-- The immediate dominator of each block as far as it is known; the start is its own. -/
abbrev Dominators (n : Nat) := Vector (Option (Fin n)) n

namespace Flow

variable {n : Nat}

/-- The nearest common dominator of two blocks: whichever has the lower number goes up, until both are at
the same block. A block without a dominator of its own gives way to the other. Two blocks with one number
never meet. -/
def meet (number : Fin n → Nat) (idoms : Dominators n) : Nat → Fin n → Fin n → Checked (Fin n)
  | 0, _, _ => .error .endless
  | fuel + 1, a, b =>
    if a = b then .ok a
    else if number a < number b then
      match idoms.get a with
      | some up => if up = a then .ok b else meet number idoms fuel up b
      | none => .ok b
    else if number b < number a then
      match idoms.get b with
      | some up => if up = b then .ok a else meet number idoms fuel a up
      | none => .ok a
    else meet number idoms fuel a b

def meetPreds (number : Fin n → Nat) (idoms : Dominators n) (preds : List (Fin n)) : Checked (Option (Fin n)) :=
  preds.foldlM
    (fun found (pred : Fin n) =>
      if (idoms.get pred).isNone then return found
      else
        match found with
        | none => return some pred
        | some cur => do return some (← meet number idoms (n * n + 1) pred cur))
    none

def improveAt (f : Flow n) (alive : Fin n → Bool) (number : Fin n → Nat) (idoms : Dominators n) (b : Fin n) :
    Checked (Dominators n) := do
  match ← meetPreds number idoms (((f.ins.get b).map Arc.source).filter alive) with
  | some d => return idoms.set b.val (some d) b.isLt
  | none => return idoms

def improve (f : Flow n) (alive : Fin n → Bool) (number : Fin n → Nat) (order : List (Fin n))
    (idoms : Dominators n) : Checked (Dominators n) :=
  (order.drop 1).foldlM (f.improveAt alive number) idoms

def settle (f : Flow n) (alive : Fin n → Bool) (number : Fin n → Nat) (order : List (Fin n)) :
    Nat → Dominators n → Checked (Dominators n)
  | 0, _ => .error .endless
  | fuel + 1, idoms => do
    let next ← f.improve alive number order idoms
    if next = idoms then return idoms else f.settle alive number order fuel next

/-- What is known before the first round: the start is its own dominator. -/
def unsettled (start : Fin n) : Dominators n :=
  (Vector.replicate n (none : Option (Fin n))).set start.val (some start) start.isLt

/-- `a` is `b` or lies above it in the dominator tree. -/
def above (idoms : Dominators n) (a : Fin n) : Nat → Fin n → Checked Bool
  | 0, _ => .error .endless
  | fuel + 1, b =>
    if b = a then .ok true
    else
      match idoms.get b with
      | some up => if up = b then .ok false else above idoms a fuel up
      | none => .ok false

def dominates (idoms : Dominators n) (a b : Fin n) : Checked Bool := above idoms a (n + 1) b

end Flow

namespace Graph

/-- Immediate dominators, from the numbers of the last depth-first search. Blocks that the start does not
reach have none. -/
def dominators (g : Graph) : Checked (Dominators g.size) := do
  let flow ← g.flow
  let start ← g.node g.start
  let order ← g.reversePostorder.mapM g.node
  let alive (b : Fin g.size) : Bool := !(g.payload b).removed
  let number (b : Fin g.size) : Nat := (g.payload b).postorder
  flow.settle alive number order (g.size * g.size + 2) (Flow.unsettled start)

/-- Every path from the start to `b` goes through `a`. -/
def dominates (g : Graph) (a b : BlockId) : Checked Bool := do
  let idoms ← g.dominators
  if a = b then return true
  else
    let b ← g.node b
    if h : a < g.size then Flow.dominates idoms ⟨a, h⟩ b else return false

end Graph

end Unstack
