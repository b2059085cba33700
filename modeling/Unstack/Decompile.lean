import Unstack.Graph.Build
import Unstack.Graph.Text
import Unstack.Recovery.Block
import Unstack.Region.Find

namespace Unstack

structure Decompiled where
  name : String
  /-- The graph with statements and regions, unless the method has no graph at all. -/
  graph : Option Graph
  notes : List Diagnostic

def Decompiled.failed (d : Decompiled) : Bool := d.notes.any Diagnostic.isError

namespace Graph

/-- All analyses in order. An analysis that fails ends the run with a message, and what was found so far
stays. -/
def analyse (g : Graph) (plan : Plan) : Checked Draft := do
  let (outcome, g) ← g.solve plan.options
  match outcome with
  | .error e => return ⟨g, [.ofError e]⟩
  | .ok () =>
    let (_, g) ← g.removeUnreachable
    let g ← g.renumber
    let (outcome, draft) ← g.reconstruct plan []
    match outcome with
    | .error e => return { draft with notes := draft.notes ++ [.ofError e] }
    | .ok () =>
      let (graph, notes) ← draft.graph.findRegions
      return ⟨graph, draft.notes ++ notes⟩

end Graph

namespace MethodInput

/-- Decompiles a method. Whatever is wrong with it becomes a message. -/
def decompile (input : MethodInput) (plan : Plan) : Checked Decompiled := do
  match ← (Graph.ofMethod input).run with
  | .error e => return { name := input.info.name, graph := none, notes := [.ofError e] }
  | .ok g =>
    let draft ← g.analyse plan
    return { name := input.info.name, graph := some draft.graph, notes := draft.notes }

def frames (input : MethodInput) (options : Options) : Checked (Except AnalysisError Graph) := do
  match ← (Graph.ofMethod input).run with
  | .error e => return .error e
  | .ok g =>
    let (outcome, g) ← g.solve options
    return outcome.map fun () => g

end MethodInput

end Unstack
