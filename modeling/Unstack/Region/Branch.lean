import Unstack.Region.View

namespace Unstack

/-- What a search has found of a branch: its blocks, and the blocks where control may go on after it. -/
structure Branch (n : Nat) where
  members : List (Fin n)
  follows : List (Fin n)

namespace View

variable {n : Nat}

/-- The first edge into `b` that comes from outside the branch. The first block of a branch may be entered
from the head, and any block by a back edge. -/
def outsider? (v : View n) (head : Fin n) (members : List (Fin n)) (b : Fin n) : Option (Arc n) :=
  (v.ins b).find? fun arc =>
    !arc.back && !members.contains arc.source && !(arc.source == head && members.isEmpty)

/-- Why a block outside the branch is kept: it is a follow, unless it is one already, is a handler, or is
entered from somewhere that `head` does not lead to. -/
def stopAt (v : View n) (head : Fin n) (found : Branch n) (b source : Fin n) : Branch n :=
  if source ≠ head && !v.flow.hasPred source head then found
  else if found.follows.contains b || v.isHandler b then found
  else { found with follows := found.follows ++ [b] }

/-- Collects the blocks from `b` on whose predecessors are all in the branch. A block that is entered from
outside becomes a possible follow. Each step in depth adds a member, so `n + 2` steps are enough. -/
def explore (v : View n) (head : Fin n) : Nat → Fin n → Branch n → Branch n
  | 0, _, found => found
  | fuel + 1, b, found =>
    let descend (found : Branch n) : Branch n :=
      (v.flow.forwardSuccs b).foldl
        (fun found succ => if found.members.contains succ then found else v.explore head fuel succ found)
        found
    if found.members.contains b then descend found
    else if (v.ins b).length ≤ 1 then descend { found with members := found.members ++ [b] }
    else
      match v.outsider? head found.members b with
      | some arc => v.stopAt head found b arc.source
      | none =>
        descend { members := found.members ++ [b], follows := found.follows.filter (· != b) }

/-- Extends a branch of the region at `head` by what `b` leads to. -/
def growBranch (v : View n) (head b : Fin n) (found : Branch n) : Branch n := v.explore head (n + 2) b found

def branchFrom (v : View n) (head b : Fin n) : Branch n := v.growBranch head b ⟨[], []⟩

end View

def Region.ofBranches {n : Nat} (head : Fin n) (kind : CondKind) (follow : Option (Fin n))
    (branches : List (Bool × List (Fin n))) : Region :=
  branches.foldl (fun r (taken, members) => r.addMembers (.branch taken) (members.map Fin.val))
    { Region.ofHead head (.cond kind) with follow := follow.map Fin.val }

namespace View

variable {n : Nat}

/-- The conditional region at a block that branches to `whenTrue` and `whenFalse`. The branch that comes
first in the source is searched first; if it does not lead past the other one, that one is the follow. -/
def condRegion (v : View n) (head whenTrue whenFalse : Fin n) : Region × List Diagnostic :=
  let negated := v.isBefore whenFalse whenTrue || v.isBefore whenTrue head
  let (first, second) := if negated then (whenFalse, whenTrue) else (whenTrue, whenFalse)
  let one := v.branchFrom head first
  if one.follows.isEmpty || one.follows.contains second then
    (.ofBranches head (if negated then .negated else .plain) (some second) [(!negated, one.members)], [])
  else
    let two := v.branchFrom head second
    if two.follows.isEmpty || two.follows.contains first then
      (.ofBranches head (if negated then .plain else .negated) (some first) [(negated, two.members)], [])
    else if v.earliest one.follows = v.earliest two.follows then
      (.ofBranches head (if negated then .negatedWithElse else .withElse) (v.earliest one.follows)
        [(!negated, one.members), (negated, two.members)], [])
    else
      (.ofHead head (.cond .plain), [v.warn head "no common follow for conditional branches"])

end View

end Unstack
