import Unstack.Proofs.Dataflow.Safe
import Unstack.Proofs.Graph.DepthFirst
import Unstack.Proofs.Graph.Exclusive

namespace Unstack

variable {g : Graph} {block : Block} {m : MethodInput} {o : Operation}

namespace Graph

/-- The block ends in the return from a subroutine. -/
def EndsSub (g : Graph) (b : BlockId) : Prop :=
  ∃ block o reg, g.blocks[b]? = some block ∧ block.ops.getLast? = some o ∧ o.instr = .leaveSub reg

/-- What the analysis makes of a graph, whatever comes of it: blocks hold what they held, and the only new edges
are returns from subroutines, at blocks that end in one. -/
structure Extends (built g : Graph) : Prop extends SameCode built g where
  wired : g.Wired
  start : g.start = built.start
  content (b : BlockId) : g.contentOf b = built.contentOf b
  kinds (b : BlockId) : ∃ more, g.kindsOf b = built.kindsOf b ++ more ∧
    ∀ kind ∈ more, built.EndsSub b ∧ kind.group? = some .leaveSub

namespace Extends

variable {m : MethodInput} {built g g' : Graph} {b : BlockId}

theorem refl (wired : g.Wired) : Extends g g :=
  ⟨.refl g, wired, rfl, fun _ => rfl, fun _ => ⟨[], (List.append_nil _).symm, nofun⟩⟩

theorem withFrame (kept : Extends built g) (pc : Nat) (f : Frame) : Extends built (g.withFrame pc f) where
  toSameCode := kept.toSameCode.trans ⟨rfl, rfl, fun _ => rfl⟩
  wired := kept.wired.congr (fun _ => rfl) (fun _ => rfl) (fun _ _ _ => .rfl) fun _ => id
  start := kept.start
  content := kept.content
  kinds := kept.kinds

/-- An edge back leaves the end of a subroutine, which had no way on. -/
theorem withReturn (kept : Extends built g) {target : BlockId} (entry : Nat) (ends : built.EndsSub b) (live : g.Live b)
    (liveTarget : g.Live target) : Extends built (g.withEdge b target (.leaveSub entry)) where
  toSameCode := kept.toSameCode.trans (.withEdge ..)
  wired := kept.wired.withEdge _ live liveTarget
  start := kept.start
  content i := (contentOf_withEdge ..).trans (kept.content i)
  kinds i := by
    obtain ⟨more, same, returns⟩ := kept.kinds i
    rw [kept.wired.kindsOf_withEdge live.lt]
    split
    · rename_i here
      subst here
      exact ⟨more ++ [.leaveSub entry], by rw [same, List.append_assoc], forall_mem_snoc returns ⟨ends, rfl⟩⟩
    · exact ⟨more, same, returns⟩

theorem renumbered (kept : Extends built g) (numbered : Renumbered g g') : Extends built g' where
  toSameCode := kept.toSameCode.trans numbered.sameBodies.toSameCode
  wired := numbered.wired kept.wired
  start := numbered.start.trans kept.start
  content i := (numbered.contentOf i).trans (kept.content i)
  kinds i := numbered.kindsOf i ▸ kept.kinds i

/-- A block that ends in the return from a subroutine has no other way to go on. -/
theorem isExclusive (kept : Extends built g) (ofMethod : built.Built m) : g.IsExclusive := by
  intro b
  obtain ⟨more, same, returns⟩ := kept.kinds b
  rw [same]
  cases more with
  | nil =>
    rw [List.append_nil]
    exact ofMethod.isExclusive b
  | cons first rest =>
    obtain ⟨block, o, reg, found, atEnd, leaves⟩ := (returns first (.head _)).1
    have none : (built.kindsOf b).filter (fun kind => !kind.isHandler) = [] := by
      rw [ofMethod.wired.flow_kindsOf, ofMethod.flows b block o found atEnd, Operation.exits_eq, leaves]
      rfl
    refine .of_group .leaveSub (by simp) fun kind member => ?_
    rcases List.mem_append.mp member with old | new
    · have handler := List.filter_eq_nil_iff.mp none kind old
      exact .inl ((EdgeKind.isHandler_iff_group? kind).mp (by simpa using handler))
    · exact .inr (returns kind new).2

end Extends

/-- Only the last operation of a block can return from a subroutine. -/
theorem Laid.endsSub (laid : g.Laid m) {b : BlockId} (found : g.blocks[b]? = some block) (member : o ∈ block.ops)
    {reg : Nat} (leaves : o.instr = .leaveSub reg) : g.EndsSub b := by
  obtain ⟨nonempty, _⟩ := laid.segment b block found
  have whole := List.dropLast_append_getLast nonempty
  rw [← whole, List.mem_append, List.mem_singleton] at member
  rcases member with inner | last
  · have flows := laid.flows_inside found inner
    rw [leaves] at flows
    cases flows
  · exact ⟨block, o, reg, found, by rw [last]; exact List.getLast?_eq_getLast_of_ne_nil nonempty, leaves⟩

end Graph

/-- The error is about what flows through the method, and not about the number of rounds. -/
def AnalysisError.isFlow : AnalysisError → Bool
  | unresolvedTarget .. | depthMismatch .. | frame .. | invalidRegister .. => true
  | malformedRange .. | iterationLimit .. | emptyMethod => false

theorem AnalysisError.isFlow_ofFrame (pc : Nat) (cause : FrameError) : (ofFrame pc cause).isFlow := by
  cases cause <;> rfl

namespace Solver

open Unstack.Graph

variable {α β : Type} {holds : Graph → Prop} {s : Solver} {b : BlockId} {pc : Nat} {frame : Frame}

/-- A property of graphs that new frames keep, new edges from a block that returns from a subroutine, and new numbers. -/
structure Preserved (holds : Graph → Prop) : Prop where
  withFrame {g : Graph} (pc : Nat) (f : Frame) : holds g → holds (g.withFrame pc f)
  withReturn {g g' : Graph} {b target : BlockId} {block : Block} {o : Operation} {reg : Nat} (entry : Nat) : holds g →
    g.blocks[b]? = some block → o ∈ block.ops → o.instr = .leaveSub reg → holds g' → g'.Live target →
    holds (g'.withEdge b target (.leaveSub entry))
  renumbered {g g' : Graph} : holds g → g.renumber = .ok g' → holds g'

/-- Whatever comes of the step, the graph keeps the property, and what goes wrong is about what flows through the method. -/
def Stays (holds : Graph → Prop) (x : Solving α) (s : Solver) : Prop :=
  Ensures x s fun outcome s' => holds s'.graph ∧ ∀ e, outcome = .error e → e.isFlow

namespace Stays

theorem pure (kept : holds s.graph) (a : α) : Stays holds (Pure.pure a) s := Ensures.pure ⟨kept, by simp⟩

theorem throw (kept : holds s.graph) {e : AnalysisError} (flow : e.isFlow) :
    Stays holds (MonadExcept.throw e : Solving α) s :=
  Ensures.throw ⟨kept, fun _ same => Except.error.inj same ▸ flow⟩

/-- What holds of the graph between two steps is all that the second needs. -/
theorem bind {x : Solving α} {next : α → Solving β} (first : Stays holds x s)
    (follows : ∀ a s', holds s'.graph → Stays holds (next a) s') : Stays holds (x >>= next) s :=
  Ensures.bind first (fun a s' kept => follows a s' kept.1) fun e _ kept =>
    ⟨kept.1, fun _ same => Except.error.inj same ▸ kept.2 e rfl⟩

theorem lift_bind {x : Checked α} {next : α → Solving β} (follows : ∀ a, x = .ok a → Stays holds (next a) s) :
    Stays holds (liftM x >>= next) s := Ensures.lift_bind follows

theorem getGraph_bind {next : Graph → Solving α} (follows : Stays holds (next s.graph) s) :
    Stays holds (getGraph >>= next) s := follows

theorem modify {change : Solver → Solver} (kept : holds (change s).graph) :
    Stays holds (modifyThe Solver change : Solving Unit) s := Ensures.modify ⟨kept, by simp⟩

theorem forM {items : List α} {body : α → Solving Unit} (kept : holds s.graph)
    (each : ∀ item s, holds s.graph → Stays holds (body item) s) : Stays holds (items.forM body) s := by
  induction items generalizing s with
  | nil => exact .pure kept ()
  | cons item rest ih => exact (each item s kept).bind fun _ _ => ih

theorem liftFrame (kept : holds s.graph) (x : Except FrameError α) : Stays holds (Solver.liftFrame pc x) s := by
  cases x with
  | error cause => exact .throw kept (AnalysisError.isFlow_ofFrame pc cause)
  | ok a => exact .pure kept a

variable (keeps : Preserved holds)

include keeps

theorem store (kept : holds s.graph) : Stays holds (Solver.store pc frame) s := by
  refine getGraph_bind (lift_bind fun graph set => .modify ?_)
  unfold Graph.setFrame at set
  split at set <;> cases set
  exact keeps.withFrame pc frame kept

theorem arrive (kept : holds s.graph) : Stays holds (Solver.arrive pc frame) s := by
  refine getGraph_bind (lift_bind fun known _ => ?_)
  cases known with
  | none => exact store keeps kept
  | some old =>
    refine (liftFrame kept _).bind fun merged s' kept' => ?_
    split
    · exact .pure kept' ()
    · exact store keeps kept'

theorem record (kept : holds s.graph) : Stays holds (Solver.record pc frame) s := by
  refine getGraph_bind (lift_bind fun known _ => ?_)
  split
  · exact .pure kept ()
  · exact store keeps kept

/-- That the block returns from a subroutine may have been seen in an earlier graph. -/
theorem returnTo {reg entry site : Nat} {entryFrame : Frame} (found : holds g) (atBlock : g.blocks[b]? = some block)
    (member : o ∈ block.ops) (leaves : o.instr = .leaveSub reg) (kept : holds s.graph) :
    Stays holds (Solver.returnTo b pc entry frame entryFrame site) s := by
  refine getGraph_bind (lift_bind fun known _ => ?_)
  cases known with
  | none => exact .pure kept ()
  | some call =>
    simp only
    split
    · exact .throw kept rfl
    · rename_i target after
      obtain ⟨next, atTarget, used, _⟩ := eq_some_of_blockAt after
      have link : Stays holds (linkReturn b target entry) s := by
        refine getGraph_bind (lift_bind fun outs _ => ?_)
        split
        · exact .pure kept ()
        · refine lift_bind fun added run => .modify ?_
          obtain ⟨inside, inside'⟩ := lt_of_addEdge run
          rw [addEdge_eq _ inside inside'] at run
          cases run
          exact keeps.withReturn entry found atBlock member leaves kept ⟨next, atTarget, used⟩
      exact link.bind fun _ s' kept' => arrive keeps kept'

/-- Only the end of a subroutine adds edges. -/
theorem step (found : holds g) (atBlock : g.blocks[b]? = some block) (member : o ∈ block.ops) (kept : holds s.graph) :
    Stays holds (Solver.step b o frame) s := by
  refine (liftFrame kept _).bind fun after s' kept' => ?_
  split
  · rename_i leaves
    have returns : Stays holds (returnToCalls b o.pc frame) s' := by
      unfold returnToCalls
      split
      · exact .pure kept' ()
      · refine getGraph_bind (lift_bind fun known _ => ?_)
        cases known with
        | none => exact .pure kept' ()
        | some entryFrame => exact .forM kept' fun _ _ => returnTo keeps found atBlock member leaves
    exact returns.bind fun _ s'' kept'' => .pure kept'' after
  · exact .pure kept' after

theorem run {ops : List Operation} (found : holds g) (atBlock : g.blocks[b]? = some block)
    (part : ∀ o ∈ ops, o ∈ block.ops) (kept : holds s.graph) : Stays holds (Solver.run b ops frame) s := by
  induction ops generalizing s frame with
  | nil => exact .pure kept _
  | cons o rest ih =>
    refine (record keeps kept).bind fun _ s' kept' => ?_
    refine (step keeps found atBlock (part o (.head _)) kept').bind fun next s'' kept'' => ?_
    exact (ih (fun o member => part o (.tail _ member)) kept'').bind fun _ _ all => .pure all _

theorem follow (kept : holds s.graph) {frames : List Frame} {last : Frame} {edge : Edge} :
    Stays holds (Solver.follow frames last edge) s := by
  refine getGraph_bind (lift_bind fun target _ => ?_)
  split
  · exact .forM kept fun f s' kept' => (liftFrame kept' _).bind fun thrown s'' kept'' => arrive keeps kept''
  · exact .pure kept ()
  · exact arrive keeps kept

/-- A visit of a block keeps the property, even if it ends in an error. -/
theorem propagate (kept : holds s.graph) : Stays holds (Solver.propagate b) s := by
  refine getGraph_bind (lift_bind fun block atBlock => lift_bind fun known _ => ?_)
  cases known with
  | none => exact .pure kept ()
  | some entry =>
    refine (run keeps kept (block_eq_ok.mp atBlock) (fun _ => id) kept).bind fun result s' kept' => ?_
    refine getGraph_bind (lift_bind fun outs _ => ?_)
    exact .forM kept' fun out s'' kept'' => follow keeps kept''

theorem round (kept : holds s.graph) : Stays holds Solver.round s := by
  have reset : Stays holds (modifyThe Solver ({ · with framesChanged := false, edgesChanged := false })) s := .modify kept
  refine reset.bind fun _ s' kept' => getGraph_bind ?_
  refine (Stays.forM kept' fun b s'' => propagate keeps).bind fun _ s'' kept'' => Ensures.get_bind ?_
  split
  · exact lift_bind fun graph numbered => Ensures.set_bind (Stays.pure (keeps.renumbered kept'' numbered) _)
  · exact Stays.pure kept'' _

theorem rounds {limit left : Nat} (kept : holds s.graph) :
    Ensures (Solver.rounds limit left) s fun _ s' => holds s'.graph := by
  induction left generalizing s with
  | zero => exact .throw kept
  | succ left ih =>
    refine Ensures.bind (round keeps kept) (fun changed s' kept' => ?_) fun _ _ kept' => kept'.1
    cases changed with
    | true => exact ih kept'.1
    | false => exact .pure kept'.1

end Stays

end Solver

namespace Graph

/-- What solving does to a graph is an extension of it. -/
theorem Built.preserved_extends {built : Graph} (ofMethod : built.Built m) : Solver.Preserved (Extends built) where
  withFrame pc f kept := kept.withFrame pc f
  withReturn entry kept atBlock member leaves kept' liveTarget := by
    obtain ⟨block, found, _, ops, _⟩ := kept.toSameCode.symm.block atBlock
    refine kept'.withReturn entry (ofMethod.toLaid.endsSub found (ops ▸ member) leaves) (kept'.live ?_) liveTarget
    exact ⟨block, found, (ofMethod.segment _ block found).2.2⟩
  renumbered kept numbered := kept.renumbered (kept.wired.searched numbered).1

/-- Whatever comes of the analysis of a method, it only extends the graph; when it succeeds, the forms of its
operations are chosen in the end. -/
theorem Built.solve_extends {g' : Graph} {options : Options} {outcome : Except AnalysisError Unit}
    (ofMethod : g.Built m) (run : g.solve options = .ok (outcome, g')) :
    ∃ last, Extends g last ∧ (outcome = .ok () ∧ g' = last.countValues ∨ (∃ e, outcome = .error e) ∧ g' = last) := by
  let ends (outcome : Except AnalysisError Unit) (s : Solver) : Prop :=
    ∃ last, Extends g last ∧ (outcome = .ok () ∧ s.graph = last.countValues ∨ (∃ e, outcome = .error e) ∧ s.graph = last)
  have fails (e : AnalysisError) (s : Solver) (kept : Extends g s.graph) : ends (.error e) s :=
    ⟨s.graph, kept, .inr ⟨⟨e, rfl⟩, rfl⟩⟩
  have ensures : Ensures (g.analysis options) ⟨g, false, false⟩ ends := by
    have keeps := ofMethod.preserved_extends
    have kept : Extends g (Solver.mk g false false).graph := .refl ofMethod.wired
    refine Ensures.bind (Solver.Stays.liftFrame kept _) (fun frame s kept => ?_) fun e s kept => fails e s kept.1
    refine .lift_bind fun block _ => ?_
    refine Ensures.bind (Solver.Stays.arrive keeps kept.1) (fun _ s kept => ?_) fun e s kept => fails e s kept.1
    refine (Solver.Stays.rounds keeps kept.1).bind (fun _ s kept => .modify ?_) fails
    exact ⟨s.graph, kept, .inl ⟨rfl, rfl⟩⟩
  obtain ⟨_, s, ran, rfl⟩ := solve_eq_ok.mp run
  exact ensures outcome s ran

end Graph

end Unstack
