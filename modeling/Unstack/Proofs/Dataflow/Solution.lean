import Unstack.Proofs.Dataflow.Counted

namespace Unstack

variable {o : Operation} {entry : Nat}

namespace Graph

/-- The blocks listed are those that can be reached. -/
def Listed (g : Graph) : Prop := ∀ b, b ∈ g.postorder ↔ g.Reachable b

/-- Frames go through the operations of a block: the frame before each of them is known, and executing the
operation gives the next one. -/
inductive Traces (g : Graph) : List Operation → Frame → List Frame → Frame → Prop where
  | nil (f : Frame) : Traces g [] f [] f
  | cons {o : Operation} {rest : List Operation} {f next last : Frame} {frames : List Frame} : g.Holds o.pc f →
    f.execute o.pc o.instr = .ok next → Traces g rest next frames last → Traces g (o :: rest) f (f :: frames) last

namespace Traces

variable {g : Graph} {ops : List Operation} {f last : Frame} {frames : List Frame}

/-- The frame of an operation leads to the frame of the next one. -/
theorem consecutive (traces : g.Traces ops f frames last) {i : Nat} {next : Operation} (here : ops[i]? = some o)
    (after : ops[i + 1]? = some next) :
    ∃ f f', g.Holds o.pc f ∧ f.execute o.pc o.instr = .ok f' ∧ g.Holds next.pc f' := by
  induction traces generalizing i with
  | nil => cases here
  | cons holds executes rest ih =>
    cases i with
    | succ i => exact ih here after
    | zero =>
      cases rest with
      | nil => cases after
      | cons holds' =>
        cases here
        cases after
        exact ⟨_, _, holds, executes, holds'⟩

theorem mem (traces : g.Traces ops f frames last) (member : o ∈ ops) : ∃ f ∈ frames, g.Holds o.pc f := by
  induction traces with
  | nil => cases member
  | cons holds _ _ ih =>
    rcases List.mem_cons.mp member with rfl | member
    · exact ⟨_, .head _, holds⟩
    · obtain ⟨f, listed, holds⟩ := ih member
      exact ⟨f, .tail _ listed, holds⟩

theorem getLast (traces : g.Traces ops f frames last) (atEnd : ops.getLast? = some o) :
    ∃ f, g.Holds o.pc f ∧ f.execute o.pc o.instr = .ok last := by
  induction traces with
  | nil => cases atEnd
  | cons holds executes rest ih =>
    cases rest with
    | nil =>
      cases atEnd
      exact ⟨_, holds, executes⟩
    | cons =>
      rw [List.getLast?_cons_cons] at atEnd
      exact ih atEnd

end Traces

/-- What a block sends along an edge has arrived. A handler gets the registers of every operation of the block, with
the exception alone on the stack; any other target gets the frame behind the last operation. A return is a matter of
its call and not of the edge. -/
def Carries (g : Graph) (block target : Block) : EdgeKind → Prop
  | .handler types => ∀ o ∈ block.ops, ∃ f, g.Holds o.pc f ∧
    g.Absorbs target.pc { f with stack := [⟨target.pc, f.regs.length, Solver.caughtType types, .defined⟩] }
  | .leaveSub _ => True
  | _ => ∃ o f out, block.ops.getLast? = some o ∧ g.Holds o.pc f ∧ f.execute o.pc o.instr = .ok out ∧
    g.Absorbs target.pc out

/-- A block has an edge for the return from a subroutine to another block. -/
def ReturnsTo (g : Graph) (b target : BlockId) (entry : Nat) : Prop :=
  ∃ outs, g.outs b = .ok outs ∧ ∃ out ∈ outs, out.2.target = target ∧ out.2.kind = .leaveSub entry

/-- The frames of a graph are a solution: known where control can get, made by the operations inside blocks, and
unchanged by whatever arrives. -/
structure Solution (m : MethodInput) (g : Graph) : Prop where
  known (pc : Nat) : g.Known pc ↔
    ∃ b block o, g.Reachable b ∧ g.blocks[b]? = some block ∧ o ∈ block.ops ∧ o.pc = pc
  entered : ∃ params block, m.info.startFrame = .ok params ∧ g.blocks[g.start]? = some block ∧
    g.Absorbs block.pc params
  inside (b : BlockId) (block : Block) (i : Nat) (o next : Operation) : g.Reachable b → g.blocks[b]? = some block →
    block.ops[i]? = some o → block.ops[i + 1]? = some next →
      ∃ f f', g.Holds o.pc f ∧ f.execute o.pc o.instr = .ok f' ∧ g.Holds next.pc f'
  carried (b : BlockId) (block : Block) : g.Reachable b → g.blocks[b]? = some block →
    ∃ outs, g.outs b = .ok outs ∧
      ∀ out ∈ outs, ∃ target, g.blocks[out.2.target]? = some target ∧ g.Carries block target out.2.kind
  returned (b : BlockId) (block : Block) (o call : Operation) (reg entry : Nat) (f site : Frame) : g.Reachable b →
    g.blocks[b]? = some block → o ∈ block.ops → o.instr = .leaveSub reg → g.Holds o.pc f →
    f.subs.getLast? = some entry → call ∈ g.ops → call.instr = .enterSub entry → g.Holds call.pc site →
      ∃ entryFrame target after, g.Holds entry entryFrame ∧ g.blocks[target]? = some after ∧ after.pc = call.pc + 1 ∧
        g.ReturnsTo b target entry ∧ g.Absorbs (call.pc + 1) (f.returnedTo entryFrame site)

end Graph

namespace Solver

open Unstack.Graph

variable {α : Type} {s s' : Solver} {b : BlockId} {pc : Nat} {frame : Frame} {u : Unit} {block : Block}
  {frames : List Frame}

theorem still_forM {items : List α} {body : α → Solving Unit}
    (each : ∀ item s s', Runs (body item) s () s' → Moves s s') (still : s.Still)
    (run : Runs (items.forM body) s u s) : ∀ item ∈ items, Runs (body item) s () s := by
  induction items with
  | nil => simp
  | cons item rest ih =>
    obtain ⟨mid, first, others⟩ := runs_forM_cons.mp run
    have same := (each item s mid first).between (moves_forM each others) still
    rw [same] at first others
    exact List.forall_mem_cons.mpr ⟨first, ih others⟩

theorem still_arrive (still : s.Still) (run : Runs (arrive pc frame) s u s) : s.graph.Absorbs pc frame := by
  obtain ⟨_, changed⟩ | ⟨old, merged, holds, merge, changed⟩ := runs_arrive run
  · rw [changed] at still
    cases still.1
  · split at changed
    · rename_i same
      exact ⟨old, holds, same ▸ merge⟩
    · rw [changed] at still
      cases still.1

theorem still_record (still : s.Still) (run : Runs (record pc frame) s u s) : s.graph.Holds pc frame := by
  obtain ⟨holds, _⟩ | ⟨_, _, changed⟩ := runs_record run
  · exact holds
  · rw [changed] at still
    cases still.1

theorem still_linkReturn {target : BlockId} (still : s.Still) (run : Runs (linkReturn b target entry) s u s) :
    ∃ outs, s.graph.outs b = .ok outs ∧
      ∃ out ∈ outs, out.2.target = target ∧ out.2.kind = .leaveSub entry := by
  obtain ⟨outs, leaving, out, _⟩ | ⟨_, _, _, changed⟩ := runs_linkReturn run
  · exact ⟨outs, leaving, out⟩
  · rw [changed] at still
    cases still.2

/-- A run that changes nothing finds every frame as it computes it. -/
theorem still_run {ops : List Operation} {last : Frame} (still : s.Still)
    (run : Runs (Solver.run b ops frame) s (frames, last) s) : s.graph.Traces ops frame frames last ∧
      ∀ o ∈ ops, ∀ reg f, o.instr = .leaveSub reg → s.graph.Holds o.pc f → Runs (returnToCalls b o.pc f) s () s := by
  induction ops generalizing frame frames with
  | nil =>
    obtain ⟨rfl, rfl, _⟩ := runs_run_nil run
    exact ⟨.nil _, by simp⟩
  | cons o rest ih =>
    obtain ⟨mid, mid', next, others, rfl, recorded, stepped, onward⟩ := runs_run_cons run
    have moves := (moves_step stepped).trans (moves_run onward)
    have same := (moves_record recorded).between moves still
    rw [same] at recorded stepped
    have same' := (moves_step stepped).between (moves_run onward) still
    rw [same'] at stepped onward
    have ⟨traces, returns⟩ := ih onward
    have holds := still_record still recorded
    obtain ⟨executes, effect⟩ := runs_step stepped
    refine ⟨.cons holds executes traces, List.forall_mem_cons.mpr ⟨fun reg f leaves holds' => ?_, returns⟩⟩
    obtain ⟨_, _, returned⟩ | ⟨other, _⟩ := effect
    · cases holds.symm.trans holds'
      exact returned
    · exact absurd leaves (other reg)

/-- An edge along which nothing changes carries what it should. -/
theorem still_follow {entry last : Frame} {edge : Edge} (still : s.Still)
    (traces : s.graph.Traces block.ops entry frames last) (nonempty : block.ops ≠ [])
    (run : Runs (follow frames last edge) s u s) :
    ∃ target, s.graph.blocks[edge.target]? = some target ∧ s.graph.Carries block target edge.kind := by
  obtain ⟨target, found, other⟩ := runs_follow run
  refine ⟨target, found, ?_⟩
  obtain ⟨types, kind, catches⟩ | ⟨entry, kind, _⟩ | ⟨flow, noReturn, arrival⟩ := other
  · have each := still_forM (fun _ _ _ step => moves_arrive (runs_catch step)) still catches
    rw [kind]
    intro o member
    obtain ⟨f, listed, holds⟩ := traces.mem member
    exact ⟨f, holds, still_arrive still (runs_catch (each f listed))⟩
  · rw [kind]
    trivial
  · have atEnd := List.getLast?_eq_getLast_of_ne_nil nonempty
    obtain ⟨f, holds, executes⟩ := traces.getLast atEnd
    cases kind : edge.kind with
    | handler types =>
      rw [kind] at flow
      cases flow
    | leaveSub entry => exact absurd kind (noReturn entry)
    | _ => exact ⟨_, f, last, atEnd, holds, executes, still_arrive still arrival⟩

/-- A visit that changes nothing finds the equations of its block fulfilled. -/
theorem still_propagate (still : s.Still) (found : s.graph.blocks[b]? = some block) (nonempty : block.ops ≠ [])
    (known : s.graph.Known block.pc) (run : Runs (propagate b) s u s) :
    (∃ entry frames last, s.graph.Traces block.ops entry frames last) ∧
      (∀ o ∈ block.ops, ∀ reg f, o.instr = .leaveSub reg → s.graph.Holds o.pc f →
        Runs (returnToCalls b o.pc f) s () s) ∧
      ∃ outs, s.graph.outs b = .ok outs ∧ ∀ out ∈ outs, ∃ target, s.graph.blocks[out.2.target]? = some target ∧
        s.graph.Carries block target out.2.kind := by
  obtain ⟨block', found', other⟩ := runs_propagate run
  cases found.some_unique found'
  obtain ⟨missing, _⟩ | ⟨entry, frames, last, mid, outs, holds, run, leaving, follows⟩ := other
  · obtain ⟨f, holds⟩ := known
    cases missing.symm.trans holds
  · have same := (moves_run run).between (moves_forM (fun _ _ _ => moves_follow) follows) still
    rw [same] at run leaving follows
    have ⟨traces, returns⟩ := still_run still run
    have each := still_forM (fun _ _ _ => moves_follow) still follows
    exact ⟨⟨entry, frames, last, traces⟩, returns, outs, leaving,
      fun out member => still_follow still traces nonempty (each out member)⟩

theorem mem_callSites {g : Graph} {call : Operation} (member : call ∈ g.ops) (calls : call.instr = .enterSub entry) :
    call.pc ∈ callSites g entry := by
  refine List.mem_filterMap.mpr ⟨call, Array.mem_toList_iff.mpr member, ?_⟩
  rw [calls]
  exact if_pos rfl

/-- In a state of rest, a return brings its frame to every known call. -/
theorem still_returns (still : s.Still) (innermost : frame.subs.getLast? = some entry) (known : s.graph.Known entry)
    (run : Runs (returnToCalls b pc frame) s u s) {call : Operation} {site : Frame} (member : call ∈ s.graph.ops)
    (calls : call.instr = .enterSub entry) (holds : s.graph.Holds call.pc site) :
    ∃ entryFrame target after, s.graph.Holds entry entryFrame ∧ s.graph.blocks[target]? = some after ∧
      after.pc = call.pc + 1 ∧ s.graph.ReturnsTo b target entry ∧
      s.graph.Absorbs (call.pc + 1) (frame.returnedTo entryFrame site) := by
  obtain ⟨empty, _⟩ | ⟨entry', innermost', other⟩ := runs_returnToCalls run
  · rw [empty] at innermost
    cases innermost
  · cases innermost.some_unique innermost'
    obtain ⟨missing, _⟩ | ⟨entryFrame, atEntry, sites⟩ := other
    · obtain ⟨f, holds⟩ := known
      cases missing.symm.trans holds
    · have returned := still_forM (fun _ _ _ => moves_returnTo) still sites call.pc (mem_callSites member calls)
      obtain ⟨missing, _⟩ | ⟨site', target, mid, holds', after, link, arrival⟩ := runs_returnTo returned
      · cases missing.symm.trans holds
      · cases holds.symm.trans holds'
        have same := (moves_linkReturn link).between (moves_arrive arrival) still
        rw [same] at link arrival
        obtain ⟨block, found, _, atPc⟩ := eq_some_of_blockAt after
        exact ⟨entryFrame, target, block, atEntry, found, atPc, still_linkReturn still link, still_arrive still arrival⟩

section Settled

variable {m : MethodInput} {built : Graph} {params : Frame}

/-- By induction along the path to a block: each block on it sends something to the next. -/
theorem known_of_reachable (ofMethod : built.Built m) (sound : Sound m built params none s.graph) (still : s.Still)
    (quiet : ∀ b, s.graph.Reachable b → Runs (propagate b) s () s) (reachable : s.graph.Reachable b)
    (found : s.graph.blocks[b]? = some block) : s.graph.Known block.pc := by
  have laid := ofMethod.toLaid.congr sound.toSameCode
  induction reachable generalizing block with
  | refl =>
    obtain ⟨first, found', atStart⟩ := ofMethod.start
    obtain ⟨first', found'', start, _⟩ := sound.toSameCode.block found'
    rw [← sound.start, found] at found''
    cases found''
    rw [start, atStart]
    exact sound.entered.known
  | @tail b c path step ih =>
    obtain ⟨e, edge, atEdge, used, source, rfl⟩ := step
    obtain ⟨before, found', _⟩ := sound.live ofMethod path
    have nonempty := (laid.segment b before found').1
    have ⟨_, _, outs, leaving, carries⟩ := still_propagate still found' nonempty (ih found') (quiet b path)
    have listed := (outs_eq_ok found').mp leaving
    have member : (e, edge) ∈ outs := by
      have out : e ∈ s.graph.outsOf b := (sound.wired.mem_outs b e).mpr ⟨_, edge, atEdge, used, source, rfl⟩
      rw [outsOf_eq found', ← listed.1] at out
      obtain ⟨⟨_, edge'⟩, member, rfl⟩ := List.mem_map.mp out
      cases atEdge.some_unique (listed.2 _ member)
      exact member
    obtain ⟨target, atTarget, carried⟩ := carries (e, edge) member
    cases found.some_unique atTarget
    cases kind : edge.kind with
    | handler types =>
      rw [kind] at carried
      obtain ⟨_, _, absorbs⟩ := carried _ (List.getLast_mem nonempty)
      exact absorbs.known
    | leaveSub entry => exact (sound.landed e edge block entry atEdge used kind found).resolve_right nofun
    | _ =>
      rw [kind] at carried
      obtain ⟨_, _, _, _, _, _, absorbs⟩ := carried
      exact absorbs.known

/-- A state that no visit changes solves the equations. -/
theorem solution_of_still (ofMethod : built.Built m) (start : m.info.startFrame = .ok params)
    (sound : Sound m built params none s.graph) (still : s.Still)
    (quiet : ∀ b, s.graph.Reachable b → Runs (propagate b) s () s) : s.graph.Solution m := by
  have laid := ofMethod.toLaid.congr sound.toSameCode
  have visited {b : BlockId} {block : Block} (reachable : s.graph.Reachable b) (found : s.graph.blocks[b]? = some block) :=
    still_propagate still found (laid.segment b block found).1
      (known_of_reachable ofMethod sound still quiet reachable found) (quiet b reachable)
  refine ⟨fun pc => ⟨fun known => ?_, ?_⟩, ?_, ?_, ?_, ?_⟩
  · obtain ⟨b, block, reachable, found, lower, upper⟩ := sound.visited pc known
    have inside : pc - block.pc < block.ops.length := by
      unfold Block.stop at upper
      omega
    have atPc := laid.op_pc found (List.getElem?_eq_getElem inside)
    exact ⟨b, block, _, reachable, found, List.getElem_mem inside, by omega⟩
  · rintro ⟨b, block, o, reachable, found, member, rfl⟩
    obtain ⟨⟨_, _, _, traces⟩, _⟩ := visited reachable found
    obtain ⟨f, _, holds⟩ := traces.mem member
    exact ⟨f, holds⟩
  · obtain ⟨first, found, atStart⟩ := ofMethod.start
    obtain ⟨first', found', start', _⟩ := sound.toSameCode.block found
    refine ⟨params, first', start, sound.start ▸ found', ?_⟩
    rw [start', atStart]
    exact sound.entered
  · intro b block i o next reachable found here after
    obtain ⟨⟨_, _, _, traces⟩, _⟩ := visited reachable found
    exact traces.consecutive here after
  · intro b block reachable found
    exact (visited reachable found).2.2
  · intro b block o call reg entry f site reachable found member leaves holds innermost called calls atSite
    have known := (sound.inside o.pc f holds).2 entry (List.mem_of_getLast? innermost)
    exact still_returns still innermost known ((visited reachable found).2.1 o member reg f leaves holds) called calls atSite

theorem sweep_sound (ofMethod : built.Built m) {blocks : List BlockId} (sound : Sound m built params none s.graph)
    (reachable : ∀ b ∈ blocks, s.graph.Reachable b) (run : Runs (blocks.forM propagate) s u s') :
    Sound m built params none s'.graph := by
  have kept := forM_keeps (fun mid => Sound m built params none mid.graph ∧ Continues s.graph mid.graph)
    (fun b member mid next before step =>
      ⟨propagate_sound ofMethod before.1 (before.2.reachable (reachable b member)) step,
        before.2.trans (moves_propagate step).continues⟩)
    ⟨sound, .refl _⟩ run
  exact kept.1

/-- What a round leaves: the invariant, the list of blocks, and, if it reports no change, a state in which no block
has an effect. -/
theorem round_sound (ofMethod : built.Built m) (sound : Sound m built params none s.graph) (listed : s.graph.Listed)
    {changed : Bool} (run : Runs round s changed s') :
    Sound m built params none s'.graph ∧ s'.graph.Listed ∧
      (changed = false → s'.Still ∧ ∀ b, s'.graph.Reachable b → Runs (propagate b) s' () s') := by
  obtain ⟨mid, sweep, rfl, rest⟩ := runs_round run
  have moves : Moves ⟨s.graph, false, false⟩ mid := moves_forM (fun _ _ _ => moves_propagate) sweep
  have member (b : BlockId) : b ∈ s.graph.reversePostorder ↔ s.graph.Reachable b := List.mem_reverse.trans (listed b)
  have sound' := sweep_sound ofMethod (by exact sound) (by exact fun b => (member b).mp) sweep
  split at rest
  · rename_i edges
    obtain ⟨graph, numbered, rfl⟩ := rest
    have live := sound'.live ofMethod .refl
    obtain ⟨graph', numbered', renumbered⟩ := sound'.wired.renumber live.lt
    cases numbered.symm.trans numbered'
    refine ⟨sound'.renumbered renumbered, fun b => ?_, fun quiet => ?_⟩
    · exact (renumbered.listed b).trans (renumbered.reachable_iff b).symm
    · rw [edges, Bool.or_true] at quiet
      cases quiet
  · rename_i edges
    subst rest
    have noEdge : s'.edgesChanged = false := Bool.eq_false_iff.mpr edges
    refine ⟨sound', ?_, fun quiet => ?_⟩
    · rw [moves.frames_only noEdge]
      exact listed
    · have still : s'.Still := Bool.or_eq_false_iff.mp quiet
      have same := moves.eq_of_still still
      rw [← same] at sweep
      refine ⟨still, fun b reachable => still_forM (fun _ _ _ => moves_propagate) still sweep b ((member b).mpr ?_)⟩
      rwa [same] at reachable

/-- Where the analysis ends: no visit of a block changes anything. -/
structure Rests (m : MethodInput) (built : Graph) (params : Frame) (s : Solver) : Prop where
  sound : Sound m built params none s.graph
  listed : s.graph.Listed
  still : s.Still
  quiet (b : BlockId) : s.graph.Reachable b → Runs (propagate b) s () s

/-- Rounds end without an error only in a state of rest. -/
theorem rounds_rests (ofMethod : built.Built m) {limit left : Nat} (sound : Sound m built params none s.graph)
    (listed : s.graph.Listed) (run : Runs (rounds limit left) s u s') : 0 < left ∧ Rests m built params s' := by
  induction left generalizing s with
  | zero => exact absurd run runs_throw
  | succ left ih =>
    obtain ⟨changed, mid, first, run⟩ := runs_bind.mp run
    have ⟨sound', listed', quiet⟩ := round_sound ofMethod sound listed first
    refine ⟨Nat.succ_pos left, ?_⟩
    cases changed with
    | true => exact (ih sound' listed' run).2
    | false =>
      obtain ⟨_, rfl⟩ := runs_pure.mp run
      exact ⟨sound', listed', (quiet rfl).1, (quiet rfl).2⟩

theorem rounds_sound (ofMethod : built.Built m) {limit left : Nat} (sound : Sound m built params none s.graph)
    (listed : s.graph.Listed) (run : Runs (rounds limit left) s u s') :
    Sound m built params none s'.graph ∧ s'.Still ∧ ∀ b, s'.graph.Reachable b → Runs (propagate b) s' () s' := by
  obtain ⟨_, rests⟩ := rounds_rests ofMethod sound listed run
  exact ⟨rests.sound, rests.still, rests.quiet⟩

end Settled

end Solver

namespace Graph

section Counted

variable {m : MethodInput} {g : Graph} {b : BlockId} {block : Block}

theorem Laid.op_listed (laid : g.Laid m) (found : g.blocks[b]? = some block) (member : o ∈ block.ops) :
    g.ops[o.pc]? = some o := by
  obtain ⟨i, atIndex⟩ := List.mem_iff_getElem?.mp member
  rw [laid.ops, List.getElem?_toArray, laid.op_pc found atIndex]
  exact laid.op_numbered found atIndex

def countedBlock (g : Graph) (block : Block) : Block := { block with ops := block.ops.map g.counted }

theorem countValues_eq (laid : g.Laid m) : g.countValues = g.given g.slotForms := replaceAll_eq laid.toNumbered _

theorem countValues_block (laid : g.Laid m) {block' : Block} :
    g.countValues.blocks[b]? = some block' ↔ ∃ block, g.blocks[b]? = some block ∧ g.countedBlock block = block' := by
  rw [countValues_eq laid]
  exact given_block

theorem countValues_outs (laid : g.Laid m) (found : g.blocks[b]? = some block) {outs : List (EdgeId × Edge)}
    (leaving : g.outs b = .ok outs) : g.countValues.outs b = .ok outs := by
  have found' := (countValues_block laid).mpr ⟨block, found, rfl⟩
  rw [countValues_eq laid] at found' ⊢
  exact (outs_eq_ok found').mpr ((outs_eq_ok found).mp leaving)

theorem countValues_known (laid : g.Laid m) {pc : Nat} : g.countValues.Known pc ↔ g.Known pc := by
  rw [countValues_eq laid]
  rfl

theorem countValues_holds (laid : g.Laid m) {f : Frame} : g.countValues.Holds (g.counted o).pc f ↔ g.Holds o.pc f := by
  rw [countValues_eq laid, counted_pc]
  rfl

theorem countValues_absorbs (laid : g.Laid m) {pc : Nat} {f : Frame} : g.countValues.Absorbs pc f ↔ g.Absorbs pc f := by
  rw [countValues_eq laid]
  rfl

theorem countValues_reachable (laid : g.Laid m) : g.countValues.Reachable b ↔ g.Reachable b := by
  rw [countValues_eq laid]
  rfl

theorem Carries.countValues (laid : g.Laid m) (found : g.blocks[b]? = some block) {target : Block} {kind : EdgeKind}
    (carries : g.Carries block target kind) :
    g.countValues.Carries (g.countedBlock block) (g.countedBlock target) kind := by
  cases kind with
  | handler types =>
    intro o' member'
    obtain ⟨o, member, rfl⟩ := List.mem_map.mp member'
    obtain ⟨f, holds, absorbs⟩ := carries o member
    exact ⟨f, (countValues_holds laid).mpr holds, (countValues_absorbs laid).mpr absorbs⟩
  | leaveSub => trivial
  | _ =>
    obtain ⟨o, f, out, atEnd, holds, executes, absorbs⟩ := carries
    refine ⟨g.counted o, f, out, ?_, (countValues_holds laid).mpr holds, ?_, (countValues_absorbs laid).mpr absorbs⟩
    · exact List.getLast?_map.trans (by rw [atEnd]; rfl)
    · exact (execute_counted (laid.op_listed found (List.mem_of_getLast? atEnd)) holds).trans executes

theorem ReturnsTo.countValues (laid : g.Laid m) (found : g.blocks[b]? = some block) {target : BlockId}
    (returns : g.ReturnsTo b target entry) : g.countValues.ReturnsTo b target entry := by
  obtain ⟨outs, leaving, out⟩ := returns
  exact ⟨outs, countValues_outs laid found leaving, out⟩

/-- The forms that count values do not disturb a solution. -/
theorem Solution.countValues (laid : g.Laid m) (solution : g.Solution m) : g.countValues.Solution m := by
  refine ⟨fun pc => (countValues_known laid).trans ((solution.known pc).trans ⟨?_, ?_⟩), ?entered, ?inside, ?carried,
    ?returned⟩
  · rintro ⟨b, block, o, reachable, found, member, rfl⟩
    exact ⟨b, _, g.counted o, (countValues_reachable laid).mpr reachable, (countValues_block laid).mpr ⟨block, found, rfl⟩,
      List.mem_map_of_mem member, counted_pc⟩
  · rintro ⟨b, block', o', reachable, found', member', rfl⟩
    obtain ⟨block, found, rfl⟩ := (countValues_block laid).mp found'
    obtain ⟨o, member, rfl⟩ := List.mem_map.mp member'
    exact ⟨b, block, o, (countValues_reachable laid).mp reachable, found, member, counted_pc.symm⟩
  case entered =>
    obtain ⟨params, block, start, found, absorbs⟩ := solution.entered
    refine ⟨params, g.countedBlock block, start, (countValues_block laid).mpr ⟨block, ?_, rfl⟩,
      (countValues_absorbs laid).mpr absorbs⟩
    rw [countValues_eq laid]
    exact found
  case inside =>
    intro b block' i o' next' reachable found' here' after'
    obtain ⟨block, found, rfl⟩ := (countValues_block laid).mp found'
    obtain ⟨o, here, rfl⟩ := Option.map_eq_some_iff.mp (List.getElem?_map.symm.trans here')
    obtain ⟨next, after, rfl⟩ := Option.map_eq_some_iff.mp (List.getElem?_map.symm.trans after')
    obtain ⟨f, f', holds, executes, holds'⟩ :=
      solution.inside b block i o next ((countValues_reachable laid).mp reachable) found here after
    exact ⟨f, f', (countValues_holds laid).mpr holds,
      (execute_counted (laid.op_listed found (List.mem_of_getElem? here)) holds).trans executes,
      (countValues_holds laid).mpr holds'⟩
  case carried =>
    intro b block' reachable found'
    obtain ⟨block, found, rfl⟩ := (countValues_block laid).mp found'
    obtain ⟨outs, leaving, carried⟩ := solution.carried b block ((countValues_reachable laid).mp reachable) found
    refine ⟨outs, countValues_outs laid found leaving, fun out member => ?_⟩
    obtain ⟨target, atTarget, carries⟩ := carried out member
    exact ⟨_, (countValues_block laid).mpr ⟨target, atTarget, rfl⟩, carries.countValues laid found⟩
  case returned =>
    intro b block' o' call' reg entry f site reachable found' member' leaves holds innermost called' calls atSite
    obtain ⟨block, found, rfl⟩ := (countValues_block laid).mp found'
    obtain ⟨o, member, rfl⟩ := List.mem_map.mp member'
    rw [countValues_eq laid] at called'
    obtain ⟨call, called, rfl⟩ := Array.mem_map.mp called'
    have callListed : g.ops[call.pc]? = some call := by
      obtain ⟨i, atIndex⟩ := Array.mem_iff_getElem?.mp called
      rw [laid.toNumbered.ops i call (by rwa [Array.getElem?_toList]), Nat.zero_add]
      exact atIndex
    obtain ⟨entryFrame, target, after, atEntry, atTarget, atPc, returns, absorbs⟩ :=
      solution.returned b block o call reg entry f site ((countValues_reachable laid).mp reachable) found member
        (instr_of_counted (laid.op_listed found member) leaves nofun nofun) ((countValues_holds laid).mp holds) innermost
        called (instr_of_counted callListed calls nofun nofun) ((countValues_holds laid).mp atSite)
    refine ⟨entryFrame, target, g.countedBlock after, ?_, (countValues_block laid).mpr ⟨after, atTarget, rfl⟩, ?_,
      returns.countValues laid found, ?_⟩
    · rw [countValues_eq laid]
      exact atEntry
    · exact atPc.trans (congrArg (· + 1) counted_pc.symm)
    · exact (countValues_absorbs laid).mpr (by rwa [Operation.given_pc])

end Counted

section Solve

variable {m : MethodInput} {g g' : Graph} {options : Options} {outcome : Except AnalysisError Unit}

/-- An analysis ends without a fault exactly if the registers fit and its steps meet none. -/
theorem solve_eq_ok : g.solve options = .ok (outcome, g') ↔
    g.info.Fits ∧ ∃ s, (g.analysis options).run.run ⟨g, false, false⟩ = .ok (outcome, s) ∧ s.graph = g' := by
  unfold solve
  split
  · rename_i fits
    constructor
    · intro solved
      obtain ⟨⟨_, s⟩, ran, same⟩ := bind_eq_ok.mp solved
      cases same
      exact ⟨fits, s, ran, rfl⟩
    · rintro ⟨_, s, ran, rfl⟩
      exact bind_eq_ok.mpr ⟨_, ran, rfl⟩
  · rename_i large
    exact ⟨fun failed => (by cases failed), fun solved => absurd solved.1 large⟩

/-- Only a method whose frames fit is solved. -/
theorem Built.fits (ofMethod : g.Built m) (solved : g.solve options = .ok (outcome, g')) :
    m.info.Fits := ofMethod.info ▸ (solve_eq_ok.mp solved).1

/-- What an analysis that succeeds goes through: the frame of the parameters is stored, and the rounds end. -/
theorem Built.solve_runs (ofMethod : g.Built m) (solved : g.solve options = .ok (.ok (), g')) :
    ∃ params first s last, m.info.startFrame = .ok params ∧ g.blocks[g.start]? = some first ∧
      Solver.Runs (Solver.arrive first.pc params) ⟨g, false, false⟩ () s ∧ s.graph = g.withFrame 0 params ∧
      Solver.Runs (Solver.rounds options.maxRounds options.maxRounds) s () last ∧ g' = last.graph.countValues := by
  obtain ⟨_, s, analysed, rfl⟩ := solve_eq_ok.mp solved
  change Solver.Runs _ _ _ _ at analysed
  simp only [analysis, Solver.runs_bind, Solver.runs_liftFrame, Solver.runs_lift, Solver.runs_modify,
    block_eq_ok] at analysed
  obtain ⟨params, _, ⟨started, rfl⟩, first, _, ⟨found, rfl⟩, _, mid, arrival, _, last, rounds, rfl⟩ := analysed
  rw [ofMethod.info] at started
  obtain ⟨block, found', atStart⟩ := ofMethod.start
  cases found.some_unique found'
  refine ⟨params, first, mid, last, started, found, arrival, ?_, rounds, rfl⟩
  -- no frame is known before the analysis, so the first one is stored
  rw [atStart] at arrival
  obtain ⟨_, rfl⟩ | ⟨old, _, holds, _⟩ := Solver.runs_arrive arrival
  · rfl
  · simp [Holds, ofMethod.frames, Array.getElem?_replicate] at holds

end Solve

/-- When the analysis of a method succeeds, its frames are a solution in the graph that it leaves. -/
theorem solve_solution {m : MethodInput} {g g' : Graph} {options : Options} (run : (Graph.ofMethod m).run = .ok (.ok g))
    (solved : g.solve options = .ok (.ok (), g')) : g'.Solution m := by
  have ofMethod := (ofMethod_yields m).of_run run
  obtain ⟨params, _, mid, last, started, _, _, arrived, rounds, rfl⟩ := ofMethod.solve_runs solved
  have sound := (Sound.initial ofMethod started).2
  have listed : mid.graph.Listed := by
    rw [arrived]
    exact ofMethod.listed
  rw [← arrived] at sound
  have ⟨sound', still, quiet⟩ := Solver.rounds_sound ofMethod sound listed rounds
  exact (Solver.solution_of_still ofMethod started sound' still quiet).countValues
    (ofMethod.toLaid.congr sound'.toSameCode)

/-- The graph of a method after an analysis that succeeds. -/
def solved? (m : MethodInput) (options : Options) : Option Graph :=
  (Graph.ofMethod m).result?.bind fun g =>
    match g.solve options with
    | .ok (.ok (), g') => some g'
    | _ => none

theorem solves_of_isSome {m : MethodInput} {options : Options} (given : (solved? m options).isSome) :
    ∃ g g', (Graph.ofMethod m).run = .ok (.ok g) ∧ g.solve options = .ok (.ok (), g') := by
  obtain ⟨g', found⟩ := Option.isSome_iff_exists.mp given
  obtain ⟨g, built, solved⟩ := Option.bind_eq_some_iff.mp found
  refine ⟨g, g', ?_, ?_⟩
  · unfold Building.result? at built
    split at built <;> cases built
    assumption
  · split at solved <;> cases solved
    assumption

/-- Two calls of one subroutine, which writes the register that is read at the end. The calls are covered by a
handler, and a wide value is dropped by slots. -/
def cleanup : MethodInput where
  info := MethodInfo.plain "cleanup" 2 2
  ops := [⟨0, 0, -1, .enterSub 5⟩, ⟨0, 0, -1, .enterSub 5⟩, ⟨0, 0, -1, .load .int 0⟩, ⟨0, 0, -1, .leave .int⟩,
    ⟨0, 0, -1, .raise⟩, ⟨0, 0, -1, .store .returnAddress 1⟩, ⟨0, 0, -1, .push .long (.int 3)⟩,
    ⟨0, 0, -1, .pop .pop2⟩, ⟨0, 0, -1, .push .int (.int 7)⟩, ⟨0, 0, -1, .store .int 0⟩, ⟨0, 0, -1, .leaveSub 1⟩]
  exceptions := [⟨0, 4, 4, none⟩]

theorem solve_solution_cleanup : ∃ g g', (Graph.ofMethod cleanup).run = .ok (.ok g) ∧
    g.solve {} = .ok (.ok (), g') ∧ g'.Solution cleanup := by
  obtain ⟨g, g', run, solved⟩ := solves_of_isSome (show (solved? cleanup {}).isSome by decide +kernel)
  exact ⟨g, g', run, solved, solve_solution run solved⟩

end Graph

end Unstack
