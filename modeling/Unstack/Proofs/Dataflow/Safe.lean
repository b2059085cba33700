import Unstack.Proofs.Dataflow.Solution

namespace Unstack

variable {g : Graph} {o : Operation} {entry : Nat} {m : MethodInput}

/-- The subroutines that a frame is in are inside the method. -/
def Frame.Within (m : MethodInput) (f : Frame) : Prop := ∀ entry ∈ f.subs, entry < m.ops.length

theorem Frame.Within.withStack {f : Frame} (within : f.Within m) (stack : List SymValue) :
    Frame.Within m { f with stack } := within

theorem Frame.Within.of_start {info : MethodInfo} {params : Frame} (started : info.startFrame = .ok params)
    (m : MethodInput) : params.Within m := by
  intro entry member
  rw [(MethodInfo.startFrame_keeps started).2] at member
  cases member

namespace Graph

variable {m : MethodInput} {built g g' : Graph} {b : BlockId} {block : Block} {pc : Nat}

theorem Laid.op_lt (laid : g.Laid m) (found : g.blocks[b]? = some block) (member : o ∈ block.ops) :
    o.pc < m.ops.length := by
  obtain ⟨i, atIndex⟩ := List.mem_iff_getElem?.mp member
  have inside := (laid.op_numbered found atIndex).lt_length
  rwa [m.numbered_length, ← laid.op_pc found atIndex] at inside

theorem Laid.pc_lt (laid : g.Laid m) (found : g.blocks[b]? = some block) : block.pc < m.ops.length := by
  have positive := List.length_pos_iff.mpr (laid.segment b block found).1
  have first := laid.op_pc found (List.getElem?_eq_getElem positive)
  have inside := laid.op_lt found (List.getElem_mem positive)
  omega

/-- A subroutine begins with a block. -/
theorem Laid.entry_starts (laid : g.Laid m) (listed : m.numbered[pc]? = some o) (enters : o.instr = .enterSub entry) :
    ∃ (c : BlockId) (other : Block), g.blocks[c]? = some other ∧ other.pc = entry := by
  have inside := listed.lt_length
  rw [m.numbered_length] at inside
  have jumps : entry ∈ o.instr.targets := by
    rw [enters]
    exact List.mem_singleton_self entry
  exact (laid.starts entry).mpr (.inr ⟨pc, o, inside, listed, .inl jumps⟩)

theorem Laid.entry_lt (laid : g.Laid m) (found : g.blocks[b]? = some block) (member : o ∈ block.ops)
    (enters : o.instr = .enterSub entry) : entry < m.ops.length := by
  obtain ⟨i, atIndex⟩ := List.mem_iff_getElem?.mp member
  obtain ⟨c, other, atEntry, rfl⟩ := laid.entry_starts (laid.op_numbered found atIndex) enters
  exact laid.pc_lt atEntry

/-- What holds of a graph while its frames are computed, whether or not the analysis succeeds in the end: all
subroutines of known frames are inside the method, and so are all listed blocks. -/
structure Steady (m : MethodInput) (built g : Graph) : Prop extends Continues built g where
  wired : g.Wired
  within (pc : Nat) (f : Frame) : g.Holds pc f → f.Within m
  listed (b : BlockId) : b ∈ g.postorder → g.Live b

namespace Steady

theorem initial (ofMethod : built.Built m) : Steady m built built := by
  refine ⟨.refl built, ofMethod.wired, fun pc f holds => ?_, fun b member => ?_⟩
  · unfold Holds at holds
    rw [ofMethod.frames, Array.getElem?_replicate] at holds
    split at holds <;> cases holds
  · have inside := ofMethod.wired.reachable_lt ofMethod.start_lt ((ofMethod.listed b).mp member)
    exact ⟨_, Array.getElem?_eq_getElem inside, (ofMethod.segment b _ (Array.getElem?_eq_getElem inside)).2.2⟩

variable (steady : Steady m built g) (ofMethod : built.Built m)

include steady ofMethod

theorem laid : g.Laid m := ofMethod.toLaid.congr steady.toSameCode

theorem frames_size : g.frames.size = m.ops.length := by
  rw [steady.size, ofMethod.frames, Array.size_replicate]

theorem live (found : g.blocks[b]? = some block) : g.Live b :=
  ⟨block, found, ((steady.laid ofMethod).segment b block found).2.2⟩

theorem start_lt : g.start < g.size := by
  obtain ⟨first, found, _⟩ := ofMethod.start
  obtain ⟨first', found', _⟩ := steady.toSameCode.block found
  rw [steady.start]
  exact found'.lt_size

theorem frame_found (inside : pc < m.ops.length) : ∃ known, g.frames[pc]? = some known :=
  ⟨_, Array.getElem?_eq_getElem (by rwa [steady.frames_size ofMethod])⟩

/-- A frame within bounds is stored without a fault. -/
theorem withFrame {f : Frame} (inside : pc < m.ops.length) (within : f.Within m) :
    Steady m built (g.withFrame pc f) := by
  have place : pc < g.frames.size := by rwa [steady.frames_size ofMethod]
  refine ⟨steady.toContinues.trans (.withFrame place f), steady.wired.congr (fun _ => rfl) (fun _ => rfl)
    (fun _ _ _ => Iff.rfl) (fun _ => id), fun p f' holds => ?_, steady.listed⟩
  rw [withFrame_holds place] at holds
  split at holds
  · rw [holds]
    exact within
  · exact steady.within p f' holds

omit ofMethod in
theorem withEdge {target : BlockId} (entry : Nat) (live : g.Live b) (liveTarget : g.Live target) :
    Steady m built (g.withEdge b target (.leaveSub entry)) where
  toContinues := steady.toContinues.trans (.withEdge g b target entry)
  wired := steady.wired.withEdge _ live liveTarget
  within := steady.within
  listed c member := withEdge_live _ _ _ (steady.listed c member)

theorem renumbered (numbered : Renumbered g g') : Steady m built g' where
  toContinues := steady.toContinues.trans numbered.continues
  wired := numbered.wired steady.wired
  within pc f holds := by
    unfold Holds at holds
    rw [numbered.sameBodies.frames] at holds
    exact steady.within pc f holds
  listed c member := by
    refine numbered.continues.toSameCode.live ?_
    cases (numbered.listed c).mp member with
    | refl => exact steady.live ofMethod (Array.getElem?_eq_getElem (steady.start_lt ofMethod))
    | tail _ step =>
      obtain ⟨e, joins⟩ := step
      exact (steady.wired.ends_live e _ c joins).2

end Steady

theorem Sound.steady {params : Frame} (sound : Sound m built params none g) (ofMethod : built.Built m)
    (listed : g.Listed) : Steady m built g where
  toContinues := sound.toContinues
  wired := sound.wired
  within pc f holds entry member := by
    obtain ⟨_, known⟩ := (sound.inside pc f holds).2 entry member
    have inside := known.lt_size
    rwa [sound.size, ofMethod.frames, Array.size_replicate] at inside
  listed b member := sound.live ofMethod ((listed b).mp member)

end Graph

namespace Solver

open Unstack.Graph

variable {m : MethodInput} {built : Graph} {s : Solver} {b : BlockId} {block : Block} {pc : Nat} {frame : Frame}
  {α : Type}

/-- The step meets no fault, and it leaves a graph that is steady. -/
abbrev StaysSteady {α : Type} (m : MethodInput) (built : Graph) (x : Solving α) (s : Solver) : Prop :=
  Safe x s fun _ s' => Steady m built s'.graph

theorem getGraph_bind {next : Graph → Solving α} {good : α → Solver → Prop} (follows : Safe (next s.graph) s good) :
    Safe (getGraph >>= next) s good := follows

theorem liftFrame_bind {β : Type} {x : Except FrameError α} {next : α → Solving β} {good : β → Solver → Prop}
    (follows : ∀ a, x = .ok a → Safe (next a) s good) : Safe (liftFrame pc x >>= next) s good := by
  cases x with
  | error e => exact .throw (.ofFrame pc e)
  | ok a => exact follows a rfl

/-- A call is one of the method's operations. -/
theorem callSite_lt (laid : g.Laid m) {site : Nat} (member : site ∈ callSites g entry) : site < m.ops.length := by
  obtain ⟨o, listed, called⟩ := List.mem_filterMap.mp member
  rw [laid.ops, List.toList_toArray] at listed
  obtain ⟨i, found⟩ := List.mem_iff_getElem?.mp listed
  have inside := found.lt_length
  rw [m.numbered_length] at inside
  obtain ⟨_, _, rfl⟩ := MethodInput.numbered_eq_some.mp found
  split at called
  · split at called
    · cases called
      exact inside
    · cases called
  · cases called

variable (ofMethod : built.Built m)

include ofMethod

theorem store_safe (steady : Steady m built s.graph) (inside : pc < m.ops.length)
    (within : frame.Within m) : StaysSteady m built (store pc frame) s := by
  have place : pc < s.graph.frames.size := by rwa [steady.frames_size ofMethod]
  refine getGraph_bind (.lift_bind (if_pos place) (.modify ?_))
  exact steady.withFrame ofMethod inside within

theorem frameAt_bind (steady : Steady m built s.graph) (inside : pc < m.ops.length) {next : Option Frame → Solving α}
    {good : α → Solver → Prop} (follows : ∀ known, s.graph.frames[pc]? = some known → Safe (next known) s good) :
    Safe (do next (← s.graph.frameAt pc)) s good := by
  obtain ⟨known, found⟩ := steady.frame_found ofMethod inside
  exact .lift_bind (frameAt_eq_ok.mpr found) (follows known found)

theorem arrive_safe (steady : Steady m built s.graph) (inside : pc < m.ops.length)
    (within : frame.Within m) : StaysSteady m built (arrive pc frame) s := by
  refine getGraph_bind (frameAt_bind ofMethod steady inside fun known found => ?_)
  cases known with
  | none => exact store_safe ofMethod steady inside within
  | some old =>
    refine liftFrame_bind fun merged merge => ?_
    split
    · exact .pure steady
    · -- what is merged is in no more subroutines than the frame that was there
      have part := (Frame.merge_shape merge).2
      exact store_safe ofMethod steady inside fun entry member => steady.within pc old found entry (part.subset member)

theorem record_safe (steady : Steady m built s.graph) (inside : pc < m.ops.length)
    (within : frame.Within m) : StaysSteady m built (record pc frame) s := by
  refine getGraph_bind (frameAt_bind ofMethod steady inside fun known found => ?_)
  split
  · exact .pure steady
  · exact store_safe ofMethod steady inside within

omit ofMethod in
theorem linkReturn_safe (steady : Steady m built s.graph) {target : BlockId} (entry : Nat) (live : s.graph.Live b)
    (liveTarget : s.graph.Live target) : StaysSteady m built (linkReturn b target entry) s := by
  have ⟨source, found, _⟩ := live
  obtain ⟨outs, leaving⟩ := steady.wired.outs_total found
  refine getGraph_bind (.lift_bind leaving ?_)
  split
  · exact .pure steady
  · refine .lift_bind (addEdge_eq (.leaveSub entry) live.lt liveTarget.lt) (.modify ?_)
    exact steady.withEdge entry live liveTarget

/-- Returning to a call meets no fault. -/
theorem returnTo_safe (steady : Steady m built s.graph) (found : built.blocks[b]? = some block) {site : Nat}
    {entryFrame : Frame} (inside : site < m.ops.length) :
    StaysSteady m built (returnTo b pc entry frame entryFrame site) s := by
  refine getGraph_bind (frameAt_bind ofMethod steady inside fun known atSite => ?_)
  cases known with
  | none => exact .pure steady
  | some call =>
    simp only
    split
    · exact .throw _
    · rename_i target after
      obtain ⟨next, atTarget, _, start⟩ := eq_some_of_blockAt after
      obtain ⟨_, found', _⟩ := steady.toSameCode.block found
      have reached := (steady.laid ofMethod).pc_lt atTarget
      refine (linkReturn_safe steady entry (steady.live ofMethod found') (steady.live ofMethod atTarget)).bind
        fun _ s' steady' => ?_
      exact arrive_safe ofMethod steady' (by omega) (steady.within site call atSite)

theorem returnToCalls_safe (steady : Steady m built s.graph) (found : built.blocks[b]? = some block)
    (within : frame.Within m) : StaysSteady m built (returnToCalls b pc frame) s := by
  unfold returnToCalls
  split
  · exact .pure steady
  · rename_i entry innermost
    have inside := within entry (List.mem_of_getLast? innermost)
    refine getGraph_bind (frameAt_bind ofMethod steady inside fun known _ => ?_)
    cases known with
    | none => exact .pure steady
    | some entryFrame =>
      refine .forM (fun s : Solver => Steady m built s.graph) steady fun site member s' steady' => ?_
      exact returnTo_safe ofMethod steady' found (callSite_lt (steady.laid ofMethod) member)

/-- Executing an operation enters at most a subroutine of the method. -/
theorem step_safe (steady : Steady m built s.graph) (found : built.blocks[b]? = some block) (member : o ∈ block.ops)
    (within : frame.Within m) : Safe (step b o frame) s fun after s' => Steady m built s'.graph ∧ after.Within m := by
  unfold step
  refine liftFrame_bind fun after executes => ?_
  have within' : after.Within m := by
    intro entry enclosing
    rcases (Frame.execute_keeps executes).2.1 with same | ⟨target, enters, more⟩
    · exact within entry (same ▸ enclosing)
    · rw [more, List.mem_append, List.mem_singleton] at enclosing
      rcases enclosing with old | rfl
      · exact within entry old
      · exact ofMethod.toLaid.entry_lt found member enters
  split
  · refine (returnToCalls_safe ofMethod steady found within).bind fun _ s' steady' => ?_
    exact .pure ⟨steady', within'⟩
  · exact .pure ⟨steady, within'⟩

/-- By induction on the operations of the block. -/
theorem run_safe (found : built.blocks[b]? = some block) {ops : List Operation} (part : ∀ o ∈ ops, o ∈ block.ops)
    (steady : Steady m built s.graph) (within : frame.Within m) :
    Safe (Solver.run b ops frame) s fun result s' =>
      Steady m built s'.graph ∧ (∀ f ∈ result.1, f.Within m) ∧ result.2.Within m := by
  induction ops generalizing s frame with
  | nil => exact .pure ⟨steady, by simp, within⟩
  | cons o rest ih =>
    have member := part o (.head _)
    have inside := ofMethod.toLaid.op_lt found member
    unfold Solver.run
    refine (record_safe ofMethod steady inside within).bind fun _ s' steady' => ?_
    refine (step_safe ofMethod steady' found member within).bind fun next s'' after => ?_
    refine (ih (fun o member => part o (.tail _ member)) after.1 after.2).bind fun result s''' all => ?_
    exact .pure ⟨all.1, List.forall_mem_cons.mpr ⟨within, all.2.1⟩, all.2.2⟩

theorem follow_safe (steady : Steady m built s.graph) {frames : List Frame} {last : Frame} {edge : Edge}
    (live : s.graph.Live edge.target) (each : ∀ f ∈ frames, f.Within m) (within : last.Within m) :
    StaysSteady m built (follow frames last edge) s := by
  obtain ⟨target, found, _⟩ := live
  have inside := (steady.laid ofMethod).pc_lt found
  refine getGraph_bind (.lift_bind (block_eq_ok.mpr found) ?_)
  split
  · refine .forM (fun s : Solver => Steady m built s.graph) steady fun f member s' steady' => ?_
    refine liftFrame_bind fun thrown handled => arrive_safe ofMethod steady' inside ?_
    rw [handlerFrame_eq handled]
    exact each f member
  · exact .pure steady
  · exact arrive_safe ofMethod steady inside within

/-- A visit of a block meets no fault. -/
theorem propagate_safe (steady : Steady m built s.graph) (found : built.blocks[b]? = some block) :
    StaysSteady m built (propagate b) s := by
  obtain ⟨now, found', _, ops, _⟩ := steady.toSameCode.block found
  have inside := (steady.laid ofMethod).pc_lt found'
  refine getGraph_bind (.lift_bind (block_eq_ok.mpr found') ?_)
  refine frameAt_bind ofMethod steady inside fun known atFirst => ?_
  cases known with
  | none => exact .pure steady
  | some entry =>
    refine (run_safe ofMethod found (fun o member => ops ▸ member) steady (steady.within _ entry atFirst)).bind
      fun result s' after => ?_
    obtain ⟨steady', each, within⟩ := after
    obtain ⟨later, found'', _⟩ := steady'.toSameCode.block found
    obtain ⟨outs, leaving, joins⟩ := steady'.wired.leaving found''.lt_size
    refine getGraph_bind (.lift_bind leaving ?_)
    refine .forM (fun s : Solver => Steady m built s.graph) steady' fun out member s'' steady'' => ?_
    -- the targets were in use before the first frame was sent on, and no block is removed
    obtain ⟨target, atTarget, _⟩ := (steady'.wired.ends_live _ _ _ (joins out member).2).2
    obtain ⟨_, atTarget₀, _⟩ := steady'.toSameCode.symm.block atTarget
    obtain ⟨_, atTarget'', _⟩ := steady''.toSameCode.block atTarget₀
    exact follow_safe ofMethod steady'' (steady''.live ofMethod atTarget'') each within

/-- A round visits listed blocks, and all of those are there. -/
theorem round_safe (steady : Steady m built s.graph) : StaysSteady m built round s := by
  have listed (b : BlockId) (member : b ∈ s.graph.reversePostorder) : ∃ block, built.blocks[b]? = some block := by
    obtain ⟨_, found, _⟩ := steady.listed b (List.mem_reverse.mp member)
    obtain ⟨block, found', _⟩ := steady.toSameCode.symm.block found
    exact ⟨block, found'⟩
  refine Safe.bind (.modify rfl) fun _ s' (same : s'.graph = s.graph) => ?_
  refine getGraph_bind ?_
  rw [same]
  have swept : StaysSteady m built (s.graph.reversePostorder.forM propagate) s' := by
    refine .forM (fun s : Solver => Steady m built s.graph) (same ▸ steady) fun b member s'' steady'' => ?_
    obtain ⟨block, found⟩ := listed b member
    exact propagate_safe ofMethod steady'' found
  refine swept.bind fun _ s'' steady'' => .get_bind ?_
  split
  · obtain ⟨graph, numbered, renumbered⟩ := steady''.wired.renumber (steady''.start_lt ofMethod)
    exact .lift_bind numbered (.set_bind (.pure (steady''.renumbered ofMethod renumbered)))
  · exact .pure steady''

theorem rounds_safe {limit left : Nat} (steady : Steady m built s.graph) :
    StaysSteady m built (rounds limit left) s := by
  induction left generalizing s with
  | zero => exact .throw _
  | succ left ih =>
    refine (round_safe ofMethod steady).bind fun changed s' steady' => ?_
    cases changed with
    | true => exact ih steady'
    | false => exact .pure steady'

end Solver

namespace Graph

theorem replaceOperation_size (g : Graph) (pc : Nat) (instr : Instr) : (g.replaceOperation pc instr).size = g.size :=
  Array.size_map

theorem Wired.replaceOperation (wired : g.Wired) (pc : Nat) (instr : Instr) : (g.replaceOperation pc instr).Wired := by
  refine wired.congr (fun b => ?_) (fun b => ?_) (fun _ _ _ => Iff.rfl) fun b live => ?_
  · simp only [outsOf, Graph.replaceOperation, Array.getElem?_map]
    cases g.blocks[b]? with
    | none => rfl
    | some block => cases removed : block.removed <;> simp [removed]
  · simp only [insOf, Graph.replaceOperation, Array.getElem?_map]
    cases g.blocks[b]? with
    | none => rfl
    | some block => cases removed : block.removed <;> simp [removed]
  · obtain ⟨block, found, used⟩ := live
    exact ⟨_, by rw [Graph.replaceOperation, Array.getElem?_map, found]; rfl, by simp [used]⟩

/-- Counting values leaves the edges alone. -/
theorem Wired.countValues (wired : g.Wired) :
    g.countValues.Wired ∧ g.countValues.start = g.start ∧ g.countValues.size = g.size := by
  unfold Graph.countValues
  generalize g.slotForms = forms
  induction forms generalizing g with
  | nil => exact ⟨wired, rfl, rfl⟩
  | cons form rest ih =>
    obtain ⟨wired', start, size⟩ := ih (wired.replaceOperation form.1 form.2)
    exact ⟨wired', start, size.trans (replaceOperation_size ..)⟩

/-- The analysis of a method meets no fault if the registers fit, and if it succeeds, the graph is still wired. -/
theorem Built.solve_total (ofMethod : g.Built m) (fits : m.info.Fits) (options : Options) :
    ∃ outcome g', g.solve options = .ok (outcome, g') ∧ (outcome = .ok () → g'.Wired ∧ g'.start < g'.size) := by
  have steady := Steady.initial ofMethod
  obtain ⟨first, found, atStart⟩ := ofMethod.start
  have inside := ofMethod.toLaid.pc_lt found
  let holds (_ : Unit) (s : Solver) : Prop := s.graph.Wired ∧ s.graph.start < s.graph.size
  have safe : Safe (g.analysis options) ⟨g, false, false⟩ holds := by
    refine Solver.liftFrame_bind fun params started => ?_
    have within := Frame.Within.of_start started m
    refine .lift_bind (block_eq_ok.mpr found) ?_
    refine (Solver.arrive_safe ofMethod steady inside within).bind fun _ s steady' => ?_
    refine (Solver.rounds_safe ofMethod steady').bind fun _ s' steady'' => .modify ?_
    obtain ⟨wired, start, size⟩ := steady''.wired.countValues
    exact ⟨wired, by rw [start, size]; exact steady''.start_lt ofMethod⟩
  obtain ⟨outcome, s', ran, kept⟩ := safe
  exact ⟨outcome, s'.graph, solve_eq_ok.mpr ⟨ofMethod.info ▸ fits, s', ran, rfl⟩, kept ()⟩

/-- Without room for the registers there is no first frame. -/
theorem Built.solve_noRoom (ofMethod : g.Built m) (large : ¬ m.info.Fits) (options : Options) :
    g.solve options = .error (.noRoom m.info.regs) := by
  rw [← ofMethod.info] at large ⊢
  exact if_neg large

end Graph

end Unstack
