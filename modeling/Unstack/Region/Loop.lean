import Unstack.Region.Branch

namespace Unstack

structure LoopBody (n : Nat) where
  seen : List (Fin n)
  /-- The blocks of the body, without the head. -/
  members : List (Fin n)
  /-- The latest block that goes back to the head. -/
  last : Option (Fin n)

namespace View

variable {n : Nat}

/-- The later of two blocks in source order, the new one if they are level. -/
def later (v : View n) (old : Option (Fin n)) (b : Fin n) : Option (Fin n) :=
  match old with
  | none => some b
  | some last => if v.isBefore last b then some b else old

/-- Depth-first search for the blocks that lead back to `head`, and whether `b` is one. Exceptions do not
count as ways. Every block is entered once, so `n` steps in depth are enough. -/
def exploreLoop (v : View n) (head : Fin n) : Nat → Fin n → LoopBody n → Bool × LoopBody n
  | 0, _, body => (false, body)
  | fuel + 1, b, body =>
    let arcs := (v.outs b).filter fun arc => !arc.kind.isHandler
    let closes := arcs.any fun arc => arc.back && arc.target == head
    let (leads, body) := (arcs.filter fun arc => !arc.back).foldl
      (fun (leads, body) arc =>
        if arc.target == head || body.members.contains arc.target then (true, body)
        else if body.seen.contains arc.target then (leads, body)
        else
          let (inLoop, body) := v.exploreLoop head fuel arc.target body
          (leads || inLoop, body))
      (false, { body with seen := b :: body.seen })
    if !leads && !closes then (false, body)
    else
      let members := if b = head then body.members else body.members ++ [b]
      let last := if leads then body.last else v.later body.last b
      (true, { body with members, last })

def loopBody (v : View n) (head : Fin n) : LoopBody n := (v.exploreLoop head n head ⟨[], [], none⟩).2

/-- The head tests a condition that stays in the loop for one value: the kind and where the other leads. -/
def headTest? (v : View n) (head : Fin n) (body : LoopBody n) : Option (LoopKind × Fin n) :=
  let inside (b : Fin n) : Bool := b == head || body.members.contains b
  if (v.block head).stmts.length = 1 then
    match v.branches? head with
    | some (whenTrue, whenFalse) =>
      if inside whenTrue && !inside whenFalse then some (.whileTrue, whenFalse)
      else if inside whenFalse && !inside whenTrue then some (.whileFalse, whenTrue)
      else none
    | none => none
  else none

def lastTest? (v : View n) (head : Fin n) (body : LoopBody n) : Option (LoopKind × Fin n) :=
  match body.last.bind v.branches? with
  | some (whenTrue, whenFalse) =>
    if whenTrue = head then some (.untilFalse, whenFalse)
    else if whenFalse = head then some (.untilTrue, whenTrue)
    else none
  | none => none

/-- The kind of a loop and its follow. If both ends test a condition, the follow of one has to lead to the
follow of the other, and the loop is of the kind whose follow comes later. -/
def loopTest (v : View n) (head : Fin n) (body : LoopBody n) :
    Option (LoopKind × Fin n) × List Diagnostic :=
  match v.headTest? head body, v.lastTest? head body with
  | some test, none | none, some test => (some test, [])
  | none, none => (none, [])
  | some pre, some post =>
    if (v.branchFrom head pre.2).follows.contains post.2 then (some post, [])
    else if (v.branchFrom head post.2).follows.contains pre.2 then (some pre, [])
    else (some pre, [v.warn head "ambiguous loop kind, choosing pre-test"])

def loopRegion (v : View n) (head : Fin n) : Region × List Diagnostic :=
  let body := v.loopBody head
  let (test, notes) := v.loopTest head body
  let (kind, follow) := match test with
    | some (kind, follow) => (kind, some follow)
    | none => (.endless, none)
  let region : Region := .ofHead head (.loop kind (body.last.map Fin.val))
  ({ region with follow := follow.map Fin.val }.addMembers .body (body.members.map Fin.val), notes)

end View

end Unstack
