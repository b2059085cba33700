import Unstack.Region.Branch

namespace Unstack

/-- The cases of a switch while they are put in order. -/
structure CaseOrder (n : Nat) where
  order : List (Arc n)
  members : List (EdgeId × List (Fin n))
  follows : List (Fin n)
  /-- Where the switch goes on if the fallback only leads past it. -/
  pastAll : Option (Fin n)
  /-- The cases that control falls into from the one before. -/
  entered : List EdgeId

/-- How control gets to the target of a case other than by the case itself. -/
inductive Entrance where
  /-- From no other block, or only from the earlier case at this position. -/
  | fallsFrom (position : Option Nat)
  /-- From several earlier cases. -/
  | joins
  /-- From a block that no earlier case holds. -/
  | outside

def takeOut {α : Type} (items : List α) (i : Nat) : Checked (α × List α) :=
  match items[i]? with
  | some item => .ok (item, items.eraseIdx i)
  | none => .error (.noPosition i)

def putIn {α : Type} (items : List α) (i : Nat) (item : α) : Checked (List α) :=
  if i ≤ items.length then .ok (items.insertIdx i item) else .error (.noPosition i)

namespace CaseOrder

variable {n : Nat}

def membersOf (c : CaseOrder n) (e : EdgeId) : List (Fin n) := (c.members.lookup e).getD []

/-- The positions below `i` of the cases that hold a block, the highest first. -/
def holders (c : CaseOrder n) (i : Nat) (b : Fin n) : List Nat :=
  ((c.order.take i).zipIdx.filter fun (arc, _) => (c.membersOf arc.edge).contains b).reverse.map Prod.snd

/-- The one case that everything comes from, given the cases that hold each predecessor. -/
def entrance (known : Option Nat) : List (List Nat) → Entrance
  | [] => .fallsFrom known
  | holders :: rest =>
    match known.toList ++ holders with
    | [] => .outside
    | first :: others => if others.all (· == first) then entrance (some first) rest else .joins

/-- How control gets to the target of the case at position `i`. -/
def entranceOf (v : View n) (c : CaseOrder n) (i : Nat) (arc : Arc n) : Entrance :=
  let ins := v.ins arc.target
  if ins.length ≤ 1 then .fallsFrom none
  else
    let others := ins.filter fun other => other.edge != arc.edge && !other.back
    entrance none (others.map fun other => c.holders i other.source)

def caseAt (c : CaseOrder n) (i : Nat) : Checked (Arc n) :=
  match c.order[i]? with
  | some arc => .ok arc
  | none => .error (.noPosition i)

def defer (c : CaseOrder n) (i : Nat) : Checked (CaseOrder n) := do
  let (arc, others) ← takeOut c.order i
  return { c with order := others ++ [arc] }

def moveBehind (c : CaseOrder n) (position i : Nat) : Checked (CaseOrder n) := do
  if position + 1 < i then
    let (arc, others) ← takeOut c.order i
    return { c with order := ← putIn others (position + 1) arc }
  else return c

/-- Leaves the case without blocks; a fallback then says where the switch goes on. -/
def skip (c : CaseOrder n) (arc : Arc n) : CaseOrder n :=
  if arc.kind.isFallback then { c with pastAll := some arc.target } else c

def setMembers (e : EdgeId) (blocks : List (Fin n)) :
    List (EdgeId × List (Fin n)) → List (EdgeId × List (Fin n))
  | [] => [(e, blocks)]
  | (key, old) :: rest => if key = e then (key, blocks) :: rest else (key, old) :: setMembers e blocks rest

def search (v : View n) (head : Fin n) (c : CaseOrder n) (arc : Arc n) : CaseOrder n :=
  let found := v.growBranch head arc.target ⟨c.membersOf arc.edge, c.follows⟩
  { c with members := setMembers arc.edge found.members c.members, follows := found.follows }

/-- Searches the blocks of a case that control falls into: its target belongs to the case, although it is
entered from another one. -/
def searchEntered (v : View n) (head : Fin n) (c : CaseOrder n) (arc : Arc n) : CaseOrder n :=
  let found := v.growBranch head arc.target
    ⟨c.membersOf arc.edge ++ [arc.target], c.follows.filter (· != arc.target)⟩
  { c with
    members := setMembers arc.edge found.members c.members
    follows := found.follows
    entered := arc.edge :: c.entered }

/-- The case at position `i`, which control falls into from the case at an earlier position. A fallback
that is the only follow so far stands for no case of its own. -/
def fallInto (v : View n) (head : Fin n) (c : CaseOrder n) (position i : Nat) (arc : Arc n) :
    Checked (CaseOrder n) := do
  let c ← c.moveBehind position i
  return if arc.kind.isFallback && c.follows == [arc.target] then c.skip arc else searchEntered v head c arc

/-- Settles the cases from position `i` on. A case whose target is entered from a block that no case holds
yet is put at the end, at most `deferrals` times. -/
def settle (v : View n) (head : Fin n) (size : Nat) : Nat → Nat → Nat → CaseOrder n → Checked (CaseOrder n)
  | 0, _, _, c => return c
  | _, 0, _, c => return c
  | fuel + 1, deferrals + 1, i, c => do
    if size ≤ i then return c
    else
      let arc ← c.caseAt i
      match entranceOf v c i arc with
      | .joins => settle v head size fuel (deferrals + 1) (i + 1) (c.skip arc)
      | .outside =>
        if arc.kind.isFallback then settle v head size fuel (deferrals + 1) (i + 1) (c.skip arc)
        else settle v head size fuel deferrals i (← c.defer i)
      | .fallsFrom none => settle v head size fuel (deferrals + 1) (i + 1) (search v head c arc)
      | .fallsFrom (some position) =>
        settle v head size fuel (deferrals + 1) (i + 1) (← fallInto v head c position i arc)

/-- How often a case is put at the end. -/
def maxDeferrals : Nat := 10

def cases (c : CaseOrder n) : List SwitchCase :=
  c.order.zipIdx.map fun (arc, i) =>
    { edge := arc.edge
      labels := arc.kind.labels?.getD []
      fallsThrough := (c.order[i + 1]?).any fun next => c.entered.contains next.edge }

end CaseOrder

namespace View

variable {n : Nat}

def caseOrder (v : View n) (head : Fin n) : Checked (CaseOrder n) :=
  let order := (v.outs head).filter fun arc => arc.kind.isSwitchCase
  CaseOrder.settle v head order.length (order.length + CaseOrder.maxDeferrals) CaseOrder.maxDeferrals 0
    ⟨order, [], [], none, []⟩

def switchOf (v : View n) (head : Fin n) (c : CaseOrder n) : Region :=
  { head := head
    follow := (c.pastAll.or (v.earliest c.follows)).map Fin.val
    parent := none
    members := c.members.map fun (m : EdgeId × List (Fin n)) => (.case m.1, m.2.map Fin.val)
    kind := .switch (if c.pastAll.isSome then .noDefault else .withDefault) c.cases }

def switchRegion (v : View n) (head : Fin n) : Checked Region := do
  return v.switchOf head (← v.caseOrder head)

end View

end Unstack
