import Unstack.Graph.Dominator
import Unstack.Problem

namespace Unstack

/-- A graph with all names resolved, as the search for regions reads it. -/
structure View (n : Nat) where
  flow : Flow n
  blocks : Vector Block n

def Graph.view (g : Graph) : Checked (View g.size) := do
  return { flow := ← g.flow, blocks := g.blocks.toVector }

namespace View

variable {n : Nat}

def block (v : View n) (b : Fin n) : Block := v.blocks.get b

def outs (v : View n) (b : Fin n) : List (Arc n) := v.flow.outs.get b

def ins (v : View n) (b : Fin n) : List (Arc n) := v.flow.ins.get b

def isBefore (v : View n) (a b : Fin n) : Bool := (v.block a).isBefore (v.block b)

/-- Source order, where no block at all comes last. -/
def isBeforeOr (v : View n) (a : Fin n) : Option (Fin n) → Bool
  | none => true
  | some b => v.isBefore a b

def earliest (v : View n) (blocks : List (Fin n)) : Option (Fin n) :=
  blocks.foldl (fun best b => if v.isBeforeOr b best then some b else best) none

def isHandler (v : View n) (b : Fin n) : Bool := (v.ins b).any fun arc => arc.kind.isHandler

def isLoopHead (v : View n) (b : Fin n) : Bool := (v.ins b).any Arc.back

def targetOf (v : View n) (kind : EdgeKind) (b : Fin n) : Option (Fin n) :=
  ((v.outs b).find? fun arc => arc.kind == kind).map Arc.target

def lastStmt? (v : View n) (b : Fin n) : Option Stmt := (v.block b).lastStmt?

/-- The successors of a branch, of its true value first, if the block ends in one. -/
def branches? (v : View n) (b : Fin n) : Option (Fin n × Fin n) :=
  match v.lastStmt? b, v.targetOf .whenTrue b, v.targetOf .whenFalse b with
  | some (.branch _), some whenTrue, some whenFalse => some (whenTrue, whenFalse)
  | _, _, _ => none

def isSwitchHead (v : View n) (b : Fin n) : Bool := (v.lastStmt? b).any Stmt.isSwitch

def isSyncHead (v : View n) (b : Fin n) : Bool := (v.lastStmt? b).any fun s => s.monitor? == some .enter

def warn (v : View n) (b : Fin n) (message : String) : Diagnostic := .warning (some (v.block b).pc) message

end View

end Unstack
