import Unstack.Graph.Text

namespace Unstack

/-- A label inside the quotes of a drawing; a string keeps its characters. -/
def CaseLabel.dotText : CaseLabel → String
  | string s => "\\\"" ++ s ++ "\\\""
  | label => label.text

def EdgeKind.dotText : EdgeKind → String
  | sequence => ""
  | whenTrue => "T"
  | whenFalse => "F"
  | switchCase labels => String.intercalate "," (labels.map CaseLabel.dotText)
  | handler types => catchText types
  | enterSub entry => "jsr " ++ toString entry
  | leaveSub entry => "ret " ++ toString entry

/-- Back edges are dashed, other edges to handlers red. -/
def Edge.dotLine (e : Edge) : String :=
  let style :=
    if e.back then ", style=dashed"
    else if e.kind.isHandler then ", color=red"
    else ""
  "  bb" ++ toString e.source ++ " -> bb" ++ toString e.target ++ " [label=\"" ++ e.kind.dotText ++ "\"" ++
    style ++ "];"

namespace Graph

def dotLines (g : Graph) (b : BlockId) (block : Block) : Checked (List String) := do
  let edges := (← g.outs b).map fun (_, edge) => edge.dotLine
  let line := if 0 ≤ block.line then " (l" ++ toString block.line ++ ")" else ""
  let style := if b = g.start then ", style=bold" else ""
  let node := "  bb" ++ toString b ++ " [label=\"BB" ++ toString block.pc ++ line ++ "\"" ++ style ++ "];"
  return node :: edges

def dot (g : Graph) : Checked String := do
  let blocks ← g.live.mapM fun (b, block) => g.dotLines b block
  return lines (["digraph \"" ++ g.info.name ++ "\" \x7b", "  node [shape=box, fontname=monospace];"] ++
    blocks.flatten ++ ["\x7d"])

end Graph

end Unstack
