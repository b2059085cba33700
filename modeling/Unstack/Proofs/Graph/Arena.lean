import Unstack.Proofs.Build.Result
import Unstack.Proofs.Graph.Removal

namespace Unstack

namespace Graph

instance (g : Graph) (b : BlockId) : Decidable (g.Live b) :=
  decidable_of_iff (g.blocks[b]?.any (!·.removed) = true) (by simp [Live, Option.any_eq_true])

/-- The lists of edges mirror the edges: an edge in use stands once among those that leave its source, once
among those that enter its target and nowhere else, and both of these blocks are in use. What was removed
stands nowhere and has no edges. -/
structure Mirrored (g : Graph) : Prop where
  outs (e : EdgeId) (edge : Edge) : g.edges[e]? = some edge → edge.removed = false →
    ∀ b, (g.outsOf b).count e = if b = edge.source then 1 else 0
  ins (e : EdgeId) (edge : Edge) : g.edges[e]? = some edge → edge.removed = false →
    ∀ b, (g.insOf b).count e = if b = edge.target then 1 else 0
  ends (e : EdgeId) (edge : Edge) : g.edges[e]? = some edge → edge.removed = false →
    g.Live edge.source ∧ g.Live edge.target
  unlisted (e : EdgeId) (edge : Edge) : g.edges[e]? = some edge → edge.removed = true →
    ∀ b, e ∉ g.outsOf b ∧ e ∉ g.insOf b
  isolated (b : BlockId) (block : Block) : g.blocks[b]? = some block → block.removed = true →
    block.ins = [] ∧ block.outs = []

theorem count_eq_ite {es : List EdgeId} {e : EdgeId} {here : Prop} [Decidable here] (nodup : es.Nodup)
    (member : e ∈ es ↔ here) : es.count e = if here then 1 else 0 := by
  split
  · exact List.count_eq_one_of_mem nodup (member.mpr ‹_›)
  · exact List.count_eq_zero.mpr (mt member.mp ‹_›)

theorem Wired.mirrored {g : Graph} (wired : g.Wired) : g.Mirrored where
  outs e edge found used b := by
    have joins : g.Joins e edge.source edge.target := ⟨edge, found, used, rfl, rfl⟩
    refine count_eq_ite (wired.outs_nodup b) ((wired.mem_outs b e).trans ⟨fun other => ?_, fun same => ?_⟩)
    · obtain ⟨_, other⟩ := other
      exact (other.unique joins).1
    · exact ⟨edge.target, same ▸ joins⟩
  ins e edge found used b := by
    have joins : g.Joins e edge.source edge.target := ⟨edge, found, used, rfl, rfl⟩
    refine count_eq_ite (wired.ins_nodup b) ((wired.mem_ins b e).trans ⟨fun other => ?_, fun same => ?_⟩)
    · obtain ⟨_, other⟩ := other
      exact (other.unique joins).2
    · exact ⟨edge.source, same ▸ joins⟩
  ends e edge found used := wired.ends_live e _ _ ⟨edge, found, used, rfl, rfl⟩
  unlisted e edge found gone b := by
    have unused (source target : BlockId) : ¬ g.Joins e source target := by
      intro joins
      obtain ⟨edge', found', used, _⟩ := joins
      cases found.some_unique found'
      simp [gone] at used
    rw [wired.mem_outs, wired.mem_ins]
    exact ⟨fun leaves => leaves.elim (unused b), fun enters => enters.elim (unused · b)⟩
  isolated b block found gone := by
    have dead : ¬ g.Live b := by
      intro live
      obtain ⟨block', found', used⟩ := live
      cases found.some_unique found'
      simp [gone] at used
    constructor
    · refine List.eq_nil_iff_forall_not_mem.mpr fun e member => ?_
      obtain ⟨source, joins⟩ := (wired.mem_ins b e).mp (insOf_eq found ▸ member)
      exact dead (wired.ends_live e source b joins).2
    · refine List.eq_nil_iff_forall_not_mem.mpr fun e member => ?_
      obtain ⟨target, joins⟩ := (wired.mem_outs b e).mp (outsOf_eq found ▸ member)
      exact dead (wired.ends_live e b target joins).1

end Graph

/-- A change of the blocks and edges of a graph. -/
inductive Edit where
  | newBlock (pc : Nat)
  | addEdge (source target : BlockId) (kind : EdgeKind)
  | setSucc (b dest : BlockId)
  | setConds (b whenTrue whenFalse : BlockId)
  | addSwitchCase (b target : BlockId) (labels : List CaseLabel)
  | addHandler (b handler : BlockId) (caught : Option JavaType)
  | cleanupOuts (b : BlockId)
  | removeEdge (e : EdgeId)
  | removeBlock (b : BlockId)
  | moveIns (source dest : BlockId)
  | joinPred (b pred : BlockId)
  | splitPred (b : BlockId) (pc : Nat)
  | startAt (b : BlockId)
  | removeUnreachable

namespace Edit

def apply (g : Graph) : Edit → Checked Graph
  | newBlock pc => return (g.newBlock pc).2
  | addEdge source target kind => return (← g.addEdge source target kind).2
  | setSucc b dest => return (← g.setSucc b dest).2
  | setConds b whenTrue whenFalse => g.setConds b whenTrue whenFalse
  | addSwitchCase b target labels => return (← g.addSwitchCase b target labels).2
  | addHandler b handler caught => return (← g.addHandler b handler caught).2
  | cleanupOuts b => g.cleanupOuts b
  | removeEdge e => g.removeEdge e
  | removeBlock b => g.removeBlock b
  | moveIns source dest => g.moveIns source dest
  | joinPred b pred => g.joinPred b pred
  | splitPred b pc => return (← g.splitPred b pc).2
  | startAt b => return { g with start := b }
  | removeUnreachable => return (← g.removeUnreachable).2

/-- The edit names blocks in use and edges that exist, removed or not. A block is not joined to itself. -/
def Fits (g : Graph) : Edit → Prop
  | newBlock _ => True
  | addEdge source target _ => g.Live source ∧ g.Live target
  | setSucc b dest => g.Live b ∧ g.Live dest
  | setConds b whenTrue whenFalse => g.Live b ∧ g.Live whenTrue ∧ g.Live whenFalse
  | addSwitchCase b target _ => g.Live b ∧ g.Live target
  | addHandler b handler _ => g.Live b ∧ g.Live handler
  | cleanupOuts b => g.Live b
  | removeEdge e => e < g.edges.size
  | removeBlock b => g.Live b
  | moveIns source dest => g.Live source ∧ g.Live dest
  | joinPred b pred => g.Live b ∧ g.Live pred ∧ b ≠ pred
  | splitPred b _ => g.Live b
  | startAt b => g.Live b
  | removeUnreachable => g.start < g.blocks.size

instance (g : Graph) : (edit : Edit) → Decidable (edit.Fits g)
  | newBlock _ => inferInstanceAs (Decidable True)
  | addEdge source target _ => inferInstanceAs (Decidable (g.Live source ∧ g.Live target))
  | setSucc b dest => inferInstanceAs (Decidable (g.Live b ∧ g.Live dest))
  | setConds b whenTrue whenFalse => inferInstanceAs (Decidable (g.Live b ∧ g.Live whenTrue ∧ g.Live whenFalse))
  | addSwitchCase b target _ => inferInstanceAs (Decidable (g.Live b ∧ g.Live target))
  | addHandler b handler _ => inferInstanceAs (Decidable (g.Live b ∧ g.Live handler))
  | cleanupOuts b => inferInstanceAs (Decidable (g.Live b))
  | removeEdge e => inferInstanceAs (Decidable (e < g.edges.size))
  | removeBlock b => inferInstanceAs (Decidable (g.Live b))
  | moveIns source dest => inferInstanceAs (Decidable (g.Live source ∧ g.Live dest))
  | joinPred b pred => inferInstanceAs (Decidable (g.Live b ∧ g.Live pred ∧ b ≠ pred))
  | splitPred b _ => inferInstanceAs (Decidable (g.Live b))
  | startAt b => inferInstanceAs (Decidable (g.Live b))
  | removeUnreachable => inferInstanceAs (Decidable (g.start < g.blocks.size))

/-- One edit succeeds and keeps the wiring. -/
theorem Fits.wired {g : Graph} {edit : Edit} (fits : edit.Fits g) (wired : g.Wired) :
    ∃ g', edit.apply g = .ok g' ∧ g'.Wired := by
  cases edit with
  | newBlock pc => exact ⟨_, rfl, wired.newBlock pc⟩
  | addEdge source target kind =>
    obtain ⟨live, liveTarget⟩ := fits
    exact ⟨_, by simp only [apply, Graph.addEdge_eq kind live.lt liveTarget.lt]; rfl,
      wired.withEdge kind live liveTarget⟩
  | setSucc b dest =>
    obtain ⟨live, liveDest⟩ := fits
    obtain ⟨stale, run⟩ := wired.setSucc_eq live liveDest
    exact ⟨_, by simp only [apply, run]; rfl, (wired.withEdge .sequence live liveDest).without stale⟩
  | setConds b whenTrue whenFalse =>
    obtain ⟨live, liveTrue, liveFalse⟩ := fits
    obtain ⟨falseFirst, stale, run⟩ := wired.setConds_eq live liveTrue liveFalse
    exact ⟨_, run, (wired.withConds live liveTrue liveFalse falseFirst).without stale⟩
  | addSwitchCase b target labels =>
    obtain ⟨live, liveTarget⟩ := fits
    exact ⟨_, by simp only [apply, Graph.addSwitchCase, Graph.addEdge_eq _ live.lt liveTarget.lt]; rfl,
      wired.withEdge _ live liveTarget⟩
  | addHandler b handler caught =>
    obtain ⟨added, run, _, wired', _⟩ := wired.addHandler fits.1 fits.2 caught
    exact ⟨added.2, by simp only [apply, run]; rfl, wired'⟩
  | cleanupOuts b =>
    obtain ⟨stale, run⟩ := wired.cleanupOuts_eq (Graph.Live.lt fits)
    exact ⟨_, run, wired.without stale⟩
  | removeEdge e => exact ⟨_, wired.removeEdge_eq fits, wired.without [e]⟩
  | removeBlock b => exact ⟨_, wired.removeBlock_eq (Graph.Live.lt fits), wired.withoutBlock b⟩
  | moveIns source dest =>
    obtain ⟨⟨block, found, _⟩, liveDest⟩ := fits
    exact ⟨_, Graph.moveIns_eq block found liveDest.lt (wired.ins_lt found),
      wired.movedIns found liveDest.lt (.inl liveDest)⟩
  | joinPred b pred =>
    obtain ⟨live, ⟨front, found, _⟩, _⟩ := fits
    obtain ⟨run, wired'⟩ := Graph.joinPred_eq wired found live.lt (.inl live)
    exact ⟨_, run, wired'⟩
  | splitPred b pc =>
    obtain ⟨whole, found, used⟩ := fits
    exact ⟨_, by simp only [apply, Graph.splitPred_eq pc found (wired.ins_lt found)]; rfl,
      wired.parted found used pc⟩
  | startAt b => exact ⟨_, rfl, wired.congr (fun _ => rfl) (fun _ => rfl) (fun _ _ _ => Iff.rfl) fun _ live => live⟩
  | removeUnreachable =>
    obtain ⟨dead, run, _⟩ := wired.removeUnreachable_eq fits
    exact ⟨_, by simp only [apply, run]; rfl, wired.withoutBlocks dead⟩

def run (g : Graph) (edits : List Edit) : Checked Graph := edits.foldlM apply g

/-- Each edit fits the graph that the edits before it lead to. -/
def AllFit : Graph → List Edit → Prop
  | _, [] => True
  | g, edit :: rest => edit.Fits g ∧
    match edit.apply g with
    | .ok g' => AllFit g' rest
    | .error _ => True

instance decidableAllFit : (g : Graph) → (edits : List Edit) → Decidable (AllFit g edits)
  | _, [] => inferInstanceAs (Decidable True)
  | g, edit :: rest =>
    have : Decidable (match edit.apply g with
        | .ok g' => AllFit g' rest
        | .error _ => True) :=
      match edit.apply g with
      | .ok g' => decidableAllFit g' rest
      | .error _ => inferInstanceAs (Decidable True)
    inferInstanceAs (Decidable (edit.Fits g ∧ _))

/-- By induction on the edits. -/
theorem AllFit.wired {g : Graph} {edits : List Edit} (fit : AllFit g edits) (wired : g.Wired) :
    ∃ g', run g edits = .ok g' ∧ g'.Wired := by
  induction edits generalizing g with
  | nil => exact ⟨g, rfl, wired⟩
  | cons edit rest ih =>
    obtain ⟨fits, later⟩ := fit
    obtain ⟨next, applied, wired'⟩ := fits.wired wired
    rw [applied] at later
    obtain ⟨last, runs, final⟩ := ih later wired'
    exact ⟨last, by rw [run, List.foldlM_cons, applied, ok_bind]; exact runs, final⟩

/-- Whatever edits build a graph, they succeed as long as they name what there is, and leave the lists of
edges as mirrors of the edges. -/
theorem run_mirrored (info : MethodInfo) (ops : List Operation) (edits : List Edit)
    (fit : AllFit (Graph.empty info ops) edits) :
    ∃ g, run (Graph.empty info ops) edits = .ok g ∧ g.Mirrored := by
  obtain ⟨g, ran, wired⟩ := fit.wired (Graph.empty_wired info ops)
  exact ⟨g, ran, wired.mirrored⟩

/-- A loop at one block, parallel edges, a block joined to its successor while it leads to itself, and an edge
that is removed twice. -/
def tangle : List Edit :=
  [newBlock 0, newBlock 1, newBlock 2, newBlock 3, setConds 0 1 2, addEdge 1 1 .sequence, addEdge 1 3 .sequence,
    addEdge 1 3 .sequence, addHandler 0 3 none, addHandler 0 3 (some .int), addSwitchCase 2 3 [.int 1], cleanupOuts 1,
    removeEdge 2, addEdge 1 1 .whenTrue, joinPred 3 1, splitPred 3 2, setSucc 2 3, moveIns 3 2, removeBlock 3,
    startAt 2, removeUnreachable]

theorem run_mirrored_tangle : AllFit (Graph.empty (MethodInfo.plain "tangle" 0 0) []) tangle ∧
    ∃ g, run (Graph.empty (MethodInfo.plain "tangle" 0 0) []) tangle = .ok g ∧ g.Mirrored :=
  ⟨by decide +kernel, run_mirrored _ _ tangle (by decide +kernel)⟩

end Edit

end Unstack
