import Unstack.Graph.Edge

namespace Unstack

inductive Part where
  | body
  | branch (taken : Bool)
  /-- The case that is entered through this edge. -/
  | case (edge : EdgeId)
  deriving DecidableEq, Inhabited

inductive CondKind where
  | plain
  | negated
  | withElse
  | negatedWithElse
  deriving DecidableEq, Inhabited

inductive LoopKind where
  | whileTrue
  | whileFalse
  | untilFalse
  | untilTrue
  | endless
  deriving DecidableEq, Inhabited

namespace LoopKind

def isPreTest : LoopKind → Bool
  | whileTrue | whileFalse => true
  | _ => false

def isPostTest : LoopKind → Bool
  | untilFalse | untilTrue => true
  | _ => false

end LoopKind

inductive SwitchKind where
  | noDefault
  | withDefault
  deriving DecidableEq, Inhabited

structure SwitchCase where
  edge : EdgeId
  labels : List CaseLabel
  /-- Control goes on from this case into the next one. -/
  fallsThrough : Bool
  deriving DecidableEq, Inhabited

inductive RegionKind where
  | cond (kind : CondKind)
  /-- A loop and the latest block that goes back to its head. -/
  | loop (kind : LoopKind) (last : Option BlockId)
  | switch (kind : SwitchKind) (cases : List SwitchCase)
  | sync
  deriving DecidableEq, Inhabited

/-- A control structure: its head, the blocks of each part, and the block where control goes on. -/
structure Region where
  head : BlockId
  follow : Option BlockId
  parent : Option Nat
  members : List (Part × List BlockId)
  kind : RegionKind
  deriving DecidableEq, Inhabited

namespace Region

def ofHead (head : BlockId) (kind : RegionKind) : Region := ⟨head, none, none, [], kind⟩

def isHead (r : Region) (b : BlockId) : Bool := r.head == b

def isMember (r : Region) (b : BlockId) : Bool := r.head == b || r.members.any fun m => m.2.contains b

def membersOf (r : Region) (part : Part) : List BlockId :=
  match r.members.find? fun m => m.1 == part with
  | some (_, blocks) => blocks
  | none => []

def isMemberOf (r : Region) (part : Part) (b : BlockId) : Bool := (r.membersOf part).contains b

/-- The members with those of one part changed; the part is added if it was not there. -/
def changePart (part : Part) (change : List BlockId → List BlockId) :
    List (Part × List BlockId) → List (Part × List BlockId)
  | [] => [(part, change [])]
  | (key, blocks) :: rest =>
    if key = part then (key, change blocks) :: rest else (key, blocks) :: changePart part change rest

def modifyMembers (r : Region) (part : Part) (change : List BlockId → List BlockId) : Region :=
  { r with members := changePart part change r.members }

def addMember (r : Region) (part : Part) (b : BlockId) : Region :=
  r.modifyMembers part fun blocks => if blocks.contains b then blocks else blocks ++ [b]

def addMembers (r : Region) (part : Part) (blocks : List BlockId) : Region :=
  blocks.foldl (fun r b => r.addMember part b) r

/-- All members in order, each once, without the head. -/
def allMembers (r : Region) : List BlockId :=
  (r.members.flatMap Prod.snd).foldl (fun out b => if out.contains b then out else out ++ [b]) []

def loopKind? (r : Region) : Option LoopKind :=
  match r.kind with
  | .loop kind _ => some kind
  | _ => none

def loopLast? (r : Region) : Option BlockId :=
  match r.kind with
  | .loop _ last => last
  | _ => none

def condKind? (r : Region) : Option CondKind :=
  match r.kind with
  | .cond kind => some kind
  | _ => none

def isLoop (r : Region) : Bool := r.loopKind?.isSome

def isSync (r : Region) : Bool := r.kind == .sync

end Region

def CondKind.name : CondKind → String
  | plain => "If"
  | negated => "IfNot"
  | withElse => "IfElse"
  | negatedWithElse => "IfNotElse"

def LoopKind.name : LoopKind → String
  | whileTrue => "While"
  | whileFalse => "WhileNot"
  | untilFalse => "DoWhile"
  | untilTrue => "DoWhileNot"
  | endless => "Endless"

def SwitchKind.name : SwitchKind → String
  | noDefault => "NoDefault"
  | withDefault => "WithDefault"

def Region.label (r : Region) : String :=
  match r.kind with
  | .cond kind => "cond " ++ kind.name
  | .loop kind _ => "loop " ++ kind.name
  | .switch kind _ => "switch " ++ kind.name
  | .sync => "sync"

end Unstack
