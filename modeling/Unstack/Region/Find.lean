import Unstack.Region.Loop
import Unstack.Region.Switch
import Unstack.Region.Sync

namespace Unstack

/-- The regions found so far, outer ones first, and the messages about them. -/
structure Findings where
  regions : List Region
  notes : List Diagnostic

namespace Findings

/-- Adds a region. It lies in the latest region that holds its head. -/
def add (f : Findings) (region : Region) (notes : List Diagnostic) : Findings :=
  let enclosing := f.regions.zipIdx.filter fun (outer, _) => outer.isMember region.head
  { regions := f.regions ++ [{ region with parent := enclosing.getLast?.map Prod.snd }]
    notes := f.notes ++ notes }

def isPostTest (f : Findings) (b : BlockId) : Bool :=
  f.regions.any fun r => r.loopKind?.any LoopKind.isPostTest && r.loopLast? == some b

end Findings

namespace View

variable {n : Nat}

def backArcs (v : View n) : List (Arc n) :=
  (List.finRange n).flatMap fun b => if (v.block b).removed then [] else (v.outs b).filter Arc.back

/-- The back edges whose target does not dominate their source. -/
def irreducible (v : View n) (idoms : Dominators n) : Checked (List (Arc n)) :=
  v.backArcs.filterM fun arc => do return !(← Flow.dominates idoms arc.target arc.source)

def irreducibleNote (v : View n) (arc : Arc n) : Diagnostic :=
  v.warn arc.source ("irreducible loop: BB" ++ toString (v.block arc.source).pc ++ " -> BB" ++
    toString (v.block arc.target).pc)

def findInner (v : View n) (b : Fin n) (f : Findings) : Checked Findings := do
  if v.isSyncHead b then return f.add (v.syncRegion b) []
  else if v.isSwitchHead b then return f.add (← v.switchRegion b) []
  else
    match v.branches? b with
    | some (whenTrue, whenFalse) =>
      if f.isPostTest b then return f
      else
        let (region, notes) := v.condRegion b whenTrue whenFalse
        return f.add region notes
    | none => return f

/-- The regions that a block is the head of. The condition at the head of a loop that tests there belongs
to the loop. -/
def findAt (v : View n) (b : Fin n) (f : Findings) : Checked Findings := do
  if (v.block b).removed then return f
  else if v.isLoopHead b then
    let (region, notes) := v.loopRegion b
    let f := f.add region notes
    if region.loopKind?.any LoopKind.isPreTest then return f else v.findInner b f
  else v.findInner b f

end View

/-- Finds the control structures of a graph. Blocks are visited in reverse postorder, so that outer regions
are found before inner ones. -/
def Graph.findRegions (g : Graph) : Checked (Graph × List Diagnostic) := do
  let view ← g.view
  let irreducible ← view.irreducible (← g.dominators)
  let order ← g.reversePostorder.mapM g.node
  let found ← order.foldlM (fun f b => view.findAt b f) ⟨[], irreducible.map view.irreducibleNote⟩
  return ({ g with regions := found.regions }, found.notes)

end Unstack
