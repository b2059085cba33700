import Unstack.ClassFacts
import Unstack.Command
import Unstack.Dataflow
import Unstack.Decompile
import Unstack.Expr
import Unstack.Expr.Text
import Unstack.Frame
import Unstack.Frame.Effect
import Unstack.Graph
import Unstack.Graph.Build
import Unstack.Graph.Dominator
import Unstack.Graph.Dot
import Unstack.Graph.Edge
import Unstack.Graph.Edit
import Unstack.Graph.Flow
import Unstack.Graph.Text
import Unstack.Instr
import Unstack.Instr.Text
import Unstack.Interchange.Fixture
import Unstack.Interchange.Instr
import Unstack.Interchange.Member
import Unstack.Interchange.Method
import Unstack.JavaType
import Unstack.Json.Reader
import Unstack.Json.Value
import Unstack.Json.Writer
import Unstack.Main
import Unstack.Member
import Unstack.Method
import Unstack.Number.Binary64
import Unstack.Number.Reader
import Unstack.Number.Shortest
import Unstack.Number.Word
import Unstack.Options
import Unstack.Problem
import Unstack.Proofs.Build.Accept
import Unstack.Proofs.Build.Cover
import Unstack.Proofs.Build.Jumps
import Unstack.Proofs.Build.Layout
import Unstack.Proofs.Build.Links
import Unstack.Proofs.Build.Partition
import Unstack.Proofs.Build.Result
import Unstack.Proofs.Build.Scan
import Unstack.Proofs.Dataflow.Balance
import Unstack.Proofs.Dataflow.Counted
import Unstack.Proofs.Dataflow.Handover
import Unstack.Proofs.Dataflow.Invariant
import Unstack.Proofs.Dataflow.Moves
import Unstack.Proofs.Dataflow.Parameters
import Unstack.Proofs.Dataflow.Progress
import Unstack.Proofs.Dataflow.Repeat
import Unstack.Proofs.Dataflow.Returns
import Unstack.Proofs.Dataflow.Safe
import Unstack.Proofs.Dataflow.Solution
import Unstack.Proofs.Dataflow.Straight
import Unstack.Proofs.Dataflow.Subroutine
import Unstack.Proofs.Dataflow.Termination
import Unstack.Proofs.Decompile
import Unstack.Proofs.Dominator.Immediate
import Unstack.Proofs.Dominator.Rounds
import Unstack.Proofs.Dominator.Tree
import Unstack.Proofs.Expr.Compound
import Unstack.Proofs.Expr.Concatenation
import Unstack.Proofs.Expr.Effects
import Unstack.Proofs.Expr.Evaluation
import Unstack.Proofs.Expr.Grammar
import Unstack.Proofs.Expr.Minus
import Unstack.Proofs.Expr.Token
import Unstack.Proofs.Frame.Effect
import Unstack.Proofs.Frame.Merge
import Unstack.Proofs.Frame.Semilattice
import Unstack.Proofs.Frame.Slack
import Unstack.Proofs.Frame.Slots
import Unstack.Proofs.Graph.Arena
import Unstack.Proofs.Graph.Content
import Unstack.Proofs.Graph.Cycle
import Unstack.Proofs.Graph.DepthFirst
import Unstack.Proofs.Graph.Dominance
import Unstack.Proofs.Graph.Edit
import Unstack.Proofs.Graph.Exclusive
import Unstack.Proofs.Graph.Exit
import Unstack.Proofs.Graph.Joining
import Unstack.Proofs.Graph.Postorder
import Unstack.Proofs.Graph.Removal
import Unstack.Proofs.Graph.Resolved
import Unstack.Proofs.Graph.Search
import Unstack.Proofs.Graph.Sturdy
import Unstack.Proofs.Graph.Wiring
import Unstack.Proofs.Interchange.RoundTrip
import Unstack.Proofs.Outcome
import Unstack.Proofs.Recovery.Balance
import Unstack.Proofs.Recovery.CaseTable
import Unstack.Proofs.Recovery.Complete
import Unstack.Proofs.Recovery.Conditional
import Unstack.Proofs.Recovery.Contents
import Unstack.Proofs.Recovery.Coverage
import Unstack.Proofs.Recovery.Emit
import Unstack.Proofs.Recovery.EnumNames
import Unstack.Proofs.Recovery.Exclusive
import Unstack.Proofs.Recovery.Faithful
import Unstack.Proofs.Recovery.Folding
import Unstack.Proofs.Recovery.Footprint
import Unstack.Proofs.Recovery.Initializer
import Unstack.Proofs.Recovery.Limit
import Unstack.Proofs.Recovery.Meaning
import Unstack.Proofs.Recovery.Pending
import Unstack.Proofs.Recovery.Prepared
import Unstack.Proofs.Recovery.Rewiring
import Unstack.Proofs.Recovery.Safe
import Unstack.Proofs.Recovery.ShortCircuit
import Unstack.Proofs.Recovery.Step
import Unstack.Proofs.Recovery.StringDispatch
import Unstack.Proofs.Recovery.Switching
import Unstack.Proofs.Recovery.TestChain
import Unstack.Proofs.Recovery.Turn
import Unstack.Proofs.Recovery.Whole
import Unstack.Proofs.Region.CaseOrder
import Unstack.Proofs.Region.CaseSearch
import Unstack.Proofs.Region.CaseTurn
import Unstack.Proofs.Region.FallThrough
import Unstack.Proofs.Region.Classification
import Unstack.Proofs.Region.ExactLoop
import Unstack.Proofs.Region.Exploration
import Unstack.Proofs.Region.Follow
import Unstack.Proofs.Region.Irreducible
import Unstack.Proofs.Region.LoopBody
import Unstack.Proofs.Region.LoopMembers
import Unstack.Proofs.Region.MonitorDepth
import Unstack.Proofs.Region.Nesting
import Unstack.Proofs.Region.Oriented
import Unstack.Proofs.Region.SingleEntry
import Unstack.Proofs.Region.SyncBody
import Unstack.Proofs.Text.Quoted
import Unstack.Recovery.Block
import Unstack.Recovery.Fold
import Unstack.Recovery.Scratch
import Unstack.Recovery.SwitchLabel
import Unstack.Region
import Unstack.Region.Branch
import Unstack.Region.Find
import Unstack.Region.Loop
import Unstack.Region.Switch
import Unstack.Region.Sync
import Unstack.Region.View
import Unstack.Stmt
import Unstack.Text.Blank
import Unstack.Text.Escape
import Unstack.Text.Unit16
