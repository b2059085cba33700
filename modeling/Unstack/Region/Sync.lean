import Unstack.Region.View

namespace Unstack

/-- The number of monitors held after some statements, none once they have left the outermost one. -/
def monitorDepth? : Nat → List Stmt → Option Nat
  | depth, [] => some depth
  | depth, s :: rest =>
    match s.monitor? with
    | some .enter => monitorDepth? (depth + 1) rest
    | some .exit => if depth ≤ 1 then none else monitorDepth? (depth - 1) rest
    | none => monitorDepth? depth rest

structure SyncBody (n : Nat) where
  seen : List (Fin n)
  members : List (Fin n)
  follow : Option (Fin n)

namespace View

variable {n : Nat}

/-- A block that leaves the monitor is the last one on its way, and control goes on behind it. Handlers only
leave the monitor when an exception passes through, and do not belong to the region. -/
def leaveSync (v : View n) (b : Fin n) (body : SyncBody n) : SyncBody n :=
  if v.isHandler b then body
  else
    let ways := (v.outs b).filter fun arc => !arc.kind.isHandler && !arc.back
    let follow := match v.earliest (ways.map Arc.target) with
      | some next => if v.isBeforeOr next body.follow then some next else body.follow
      | none => body.follow
    { body with members := body.members ++ [b], follow }

/-- Breadth-first search with the monitor depth on entry to each block. Every edge is put into the queue at
most once, which bounds the number of steps. -/
def exploreSync (v : View n) : Nat → List (Fin n × Nat) → SyncBody n → SyncBody n
  | 0, _, body => body
  | _, [], body => body
  | fuel + 1, (b, depth) :: queue, body =>
    if body.seen.contains b then v.exploreSync fuel queue body
    else
      let body := { body with seen := b :: body.seen }
      match monitorDepth? depth (v.block b).stmts with
      | none => v.exploreSync fuel queue (v.leaveSync b body)
      | some depth =>
        let next := (v.flow.forwardSuccs b).map fun succ => (succ, depth)
        v.exploreSync fuel (queue ++ next) { body with members := body.members ++ [b] }

def arcCount (v : View n) : Nat := v.flow.outs.toList.flatten.length

def syncBody (v : View n) (head : Fin n) : SyncBody n :=
  let queue := (v.targetOf .sequence head).toList.map fun first => (first, 1)
  v.exploreSync (v.arcCount + 2) queue ⟨[], [], none⟩

def syncRegion (v : View n) (head : Fin n) : Region :=
  let body := v.syncBody head
  let region : Region := .ofHead head .sync
  { region with follow := body.follow.map Fin.val }.addMembers .body (body.members.map Fin.val)

end View

end Unstack
