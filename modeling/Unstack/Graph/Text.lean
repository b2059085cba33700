import Unstack.Graph.Flow
import Unstack.Instr.Text

namespace Unstack

def CaseLabel.text : CaseLabel → String
  | int key => toString key
  | string s => Text.literal '"' s
  | enumConstant name => name
  | fallback => "default"

def CaseLabel.listText (labels : List CaseLabel) : String := String.intercalate "," (labels.map text)

/-- The types that a handler catches, a star for everything. -/
def catchText (types : List (Option JavaType)) : String :=
  String.intercalate "|" (types.map fun t => match t with
    | some t => t.simpleName
    | none => "*")

def EdgeKind.tag : EdgeKind → String
  | sequence => ""
  | whenTrue => " [T]"
  | whenFalse => " [F]"
  | switchCase labels => " [" ++ CaseLabel.listText labels ++ "]"
  | handler types => " [catch " ++ catchText types ++ "]"
  | enterSub entry => " [jsr " ++ toString entry ++ "]"
  | leaveSub entry => " [ret " ++ toString entry ++ "]"

/-- Lines, each with its end. -/
def lines (items : List String) : String := String.join (items.map (· ++ "\n"))

namespace Graph

/-- Blocks are shown by the index of their first operation. -/
def blockText (g : Graph) (b : BlockId) : Checked String := do
  return "BB" ++ toString (← g.block b).pc

def edgeText (g : Graph) (edge : Edge) : Checked String := do
  return (← g.blockText edge.target) ++ edge.kind.tag ++ if edge.back then " back" else ""

def caseText (c : SwitchCase) : String := CaseLabel.listText c.labels ++ if c.fallsThrough then "~" else ""

def regionText (g : Graph) (r : Region) : Checked String := do
  let follow ← match r.follow with
    | some b => do pure (" follow=" ++ (← g.blockText b))
    | none => pure ""
  let last ← match r.loopLast? with
    | some b => do pure (" last=" ++ (← g.blockText b))
    | none => pure ""
  let names ← r.allMembers.mapM g.blockText
  let members := if names.isEmpty then "" else " members=[" ++ String.intercalate ", " names ++ "]"
  let cases := match r.kind with
    | .switch _ cases => " cases=[" ++ String.intercalate " | " (cases.map caseText) ++ "]"
    | _ => ""
  return r.label ++ follow ++ last ++ members ++ cases

/-- A reconstructed block: its regions, statements, remaining operations, remaining values and successors. -/
def blockLines (g : Graph) (b : BlockId) (block : Block) : Checked (List String) := do
  let regions ← (g.regions.filter fun r => r.head == b).mapM g.regionText
  let succs ← (← g.outs b).mapM fun (_, edge) => g.edgeText edge
  let head := "  BB" ++ toString block.pc ++
    (if 0 ≤ block.line then " (line " ++ toString block.line ++ ")" else "") ++
    (if block.unreconstructed then " UNRECONSTRUCTED" else "")
  return [head] ++ regions.map ("    @ " ++ ·) ++ block.stmts.map (fun s => "    " ++ s.text) ++
    block.ops.map (fun o => "    ! " ++ o.text) ++
    block.stack.reverse.map (fun v => "    ^ " ++ v.expr.text) ++
    if succs.isEmpty then [] else ["    -> " ++ String.intercalate ", " succs]

def methodText (g : Graph) : Checked String := do
  let sorted := g.live.mergeSort fun a b => a.2.pc ≤ b.2.pc
  let blocks ← sorted.mapM fun (b, block) => g.blockLines b block
  return lines (("method " ++ g.info.name ++ ":") :: blocks.flatten)

def listing (g : Graph) : Checked String := do
  let blocks ← g.reversePostorder.mapM fun b => do
    let block ← g.block b
    let edges ← (← g.outs b).mapM fun (_, edge) => do return "    -> " ++ (← g.edgeText edge)
    let head := "  BB" ++ toString block.pc ++ " po=" ++ toString block.postorder ++
      if b = g.start then " start" else ""
    return [head] ++ block.ops.map (fun o => "    " ++ o.text) ++ edges
  return lines (("cfg " ++ g.info.name ++ ":") :: blocks.flatten)

def framesText (g : Graph) : String :=
  let shown := (g.ops.toList.zip g.frames.toList).map fun (o, frame) =>
    let known := match frame with
      | some frame => frame.text
      | none => "unreachable"
    "  " ++ o.text ++ " " ++ known
  lines (("frames " ++ g.info.name ++ ":") :: shown)

end Graph

end Unstack
