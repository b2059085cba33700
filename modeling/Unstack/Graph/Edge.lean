import Unstack.JavaType

namespace Unstack

/-- Blocks are named by their position in the graph; the name of a removed block is not used again. -/
abbrev BlockId := Nat

abbrev EdgeId := Nat

inductive CaseLabel where
  | int (key : Int)
  | string (value : String)
  /-- A label of a switch on an enum, by the name of the constant. -/
  | enumConstant (name : String)
  | fallback
  deriving DecidableEq, Inhabited

inductive EdgeKind where
  | sequence
  | whenTrue
  | whenFalse
  | switchCase (labels : List CaseLabel)
  /-- The caught types, none for a handler that catches everything. -/
  | handler (types : List (Option JavaType))
  | enterSub (entry : Nat)
  /-- Back from the subroutine that starts at the given index. -/
  | leaveSub (entry : Nat)
  deriving DecidableEq, Inhabited

namespace EdgeKind

def isCond : EdgeKind → Bool
  | whenTrue | whenFalse => true
  | _ => false

def isHandler : EdgeKind → Bool
  | handler _ => true
  | _ => false

def labels? : EdgeKind → Option (List CaseLabel)
  | switchCase labels => some labels
  | _ => none

def isSwitchCase (k : EdgeKind) : Bool := k.labels?.isSome

def isFallback (k : EdgeKind) : Bool :=
  match k.labels? with
  | some labels => labels.contains .fallback
  | none => false

end EdgeKind

structure Edge where
  source : BlockId
  target : BlockId
  kind : EdgeKind
  /-- The target was on the path of the last depth-first search when the edge was visited. -/
  back : Bool
  removed : Bool
  deriving Inhabited

end Unstack
