import Unstack.Proofs.Dataflow.Balance

namespace Unstack

namespace Graph

section Counted

variable {m : MethodInput} {g : Graph} {o : Operation}

theorem given_live (g : Graph) (forms : List (Nat × Instr)) :
    (g.given forms).live =
      g.live.map fun (b, block) => (b, { block with ops := block.ops.map (Operation.given forms) }) := by
  simp only [live, given, Array.toList_map, List.zipIdx_map, List.filterMap_map, List.map_filterMap]
  refine List.filterMap_congr fun entry _ => ?_
  obtain ⟨block, b⟩ := entry
  by_cases removed : block.removed <;> simp [removed]

theorem countValues_blockAt (laid : g.Laid m) (pc : Nat) : g.countValues.blockAt? pc = g.blockAt? pc := by
  rw [countValues_eq laid, blockAt?, given_live, List.find?_map, Option.map_map]
  rfl

theorem Laid.listed_of_mem (laid : g.Laid m) (member : o ∈ g.ops) : g.ops[o.pc]? = some o := by
  obtain ⟨i, atIndex⟩ := Array.mem_iff_getElem?.mp member
  rwa [laid.toNumbered.ops i o (by rwa [Array.getElem?_toList]), Nat.zero_add]

/-- Only forms of `dup` and `pop` are replaced, and by such forms. -/
theorem counted_cases (listed : g.ops[o.pc]? = some o) :
    g.counted o = o ∨ (∃ form form', o.instr = .dup form ∧ (g.counted o).instr = .dup form') ∨
      ∃ form form', o.instr = .pop form ∧ (g.counted o).instr = .pop form' := by
  rcases counted_eq listed with same | ⟨f, form, _, other, same⟩
  · exact .inl same
  · rw [same]
    unfold Instr.onValues? at other
    split at other
    · split at other <;> cases other
      exact .inr (.inl ⟨_, _, ‹_›, rfl⟩)
    · split at other <;> cases other
      exact .inr (.inr ⟨_, _, ‹_›, rfl⟩)
    · cases other

/-- Counting values moves no call. -/
theorem countValues_callSites (laid : g.Laid m) (entry : Nat) :
    Solver.callSites g.countValues entry = Solver.callSites g entry := by
  rw [countValues_eq laid]
  simp only [Solver.callSites, given, Array.toList_map, List.filterMap_map]
  refine List.filterMap_congr fun o member => ?_
  have given : Operation.given g.slotForms o = g.counted o := rfl
  simp only [Function.comp_apply, given]
  rcases counted_cases (laid.listed_of_mem (Array.mem_toList_iff.mp member)) with
    same | ⟨_, _, before, after⟩ | ⟨_, _, before, after⟩
  · rw [same]
  · rw [before, after]
  · rw [before, after]

/-- Once the forms are chosen, there is nothing left to choose. -/
theorem countValues_countValues (laid : g.Laid m) : g.countValues.countValues = g.countValues := by
  have none : g.countValues.slotForms = [] := by
    refine List.eq_nil_iff_forall_not_mem.mpr fun form member => ?_
    obtain ⟨o', f, found, holds, other⟩ := mem_slotForms member
    rw [countValues_eq laid] at found holds
    obtain ⟨o, atIndex, rfl⟩ := Option.map_eq_some_iff.mp (Array.getElem?_map.symm.trans found)
    have pc : o.pc = form.1 := by
      rw [laid.toNumbered.ops form.1 o (by rwa [Array.getElem?_toList]), Nat.zero_add]
    rw [← pc] at atIndex holds
    rw [show Operation.given g.slotForms o = g.counted o from rfl, counted_onValues atIndex holds] at other
    cases other
  rw [countValues, none]
  rfl

end Counted

end Graph

namespace Solver

open Unstack.Graph

section Quiet

variable {α : Type} {s : Solver} {b : BlockId} {pc : Nat} {frame : Frame}

/-- A frame that is absorbed leaves the solver as it is. -/
theorem quiet_arrive (absorbs : s.graph.Absorbs pc frame) : Runs (arrive pc frame) s () s := by
  obtain ⟨old, holds, merge⟩ := absorbs
  unfold arrive
  simp only [runs_bind, runs_getGraph, runs_lift, frameAt_eq_ok]
  refine ⟨_, _, ⟨rfl, rfl⟩, some old, _, ⟨holds, rfl⟩, ?_⟩
  simp only [runs_bind, runs_liftFrame]
  refine ⟨old, s, ⟨merge, rfl⟩, ?_⟩
  rw [if_pos rfl]
  exact runs_pure.mpr ⟨rfl, rfl⟩

theorem quiet_record (holds : s.graph.Holds pc frame) : Runs (record pc frame) s () s := by
  unfold record
  simp only [runs_bind, runs_getGraph, runs_lift, frameAt_eq_ok]
  refine ⟨_, _, ⟨rfl, rfl⟩, some frame, _, ⟨holds, rfl⟩, ?_⟩
  rw [if_pos rfl]
  exact runs_pure.mpr ⟨rfl, rfl⟩

theorem quiet_linkReturn {target : BlockId} {entry : Nat} (returns : s.graph.ReturnsTo b target entry) :
    Runs (linkReturn b target entry) s () s := by
  obtain ⟨outs, leaving, out, member, toTarget, kind⟩ := returns
  unfold linkReturn
  simp only [runs_bind, runs_getGraph, runs_lift]
  refine ⟨_, _, ⟨rfl, rfl⟩, outs, _, ⟨leaving, rfl⟩, ?_⟩
  rw [if_pos (List.any_eq_true.mpr ⟨out, member, by simp [toTarget, kind]⟩)]
  exact runs_pure.mpr ⟨rfl, rfl⟩

theorem quiet_forM {items : List α} {body : α → Solving Unit} (each : ∀ item ∈ items, Runs (body item) s () s) :
    Runs (items.forM body) s () s := by
  induction items with
  | nil => exact runs_forM_nil.mpr rfl
  | cons item rest ih =>
    exact runs_forM_cons.mpr ⟨s, each item (.head _),
      ih fun item member => each item (.tail _ member)⟩

end Quiet

section Again

variable {m : MethodInput} {s again : Solver} {b : BlockId} {block : Block} {pc : Nat} {frame : Frame}
  (laid : s.graph.Laid m) (still : s.Still) (counted : again.graph = s.graph.countValues) {frames : List Frame}

include laid still counted

omit still in
theorem frames_again : again.graph.frames = s.graph.frames := by
  rw [counted, countValues_eq laid]
  rfl

theorem arrive_again (run : Runs (arrive pc frame) s () s) : Runs (arrive pc frame) again () again := by
  refine quiet_arrive ?_
  rw [counted]
  exact (countValues_absorbs laid).mpr (still_arrive still run)

theorem returnTo_again (found : s.graph.blocks[b]? = some block) {entry site : Nat} {entryFrame : Frame}
    (run : Runs (returnTo b pc entry frame entryFrame site) s () s) :
    Runs (returnTo b pc entry frame entryFrame site) again () again := by
  have frames := frames_again laid counted
  unfold returnTo
  simp only [runs_bind, runs_getGraph, runs_lift, frameAt_eq_ok]
  obtain ⟨missing, _⟩ | ⟨call, target, mid, holds, after, link, arrival⟩ := runs_returnTo run
  · exact ⟨_, _, ⟨rfl, rfl⟩, none, _, ⟨frames ▸ missing, rfl⟩, runs_pure.mpr ⟨rfl, rfl⟩⟩
  · have same := (moves_linkReturn link).between (moves_arrive arrival) still
    rw [same] at link arrival
    have returns : again.graph.ReturnsTo b target entry := by
      rw [counted]
      exact ReturnsTo.countValues laid found (still_linkReturn still link)
    have after' : again.graph.blockAt? (site + 1) = some target := by rw [counted, countValues_blockAt laid, after]
    refine ⟨_, _, ⟨rfl, rfl⟩, some call, _, ⟨frames ▸ holds, rfl⟩, ?_⟩
    simp only [after', runs_bind]
    exact ⟨(), again, quiet_linkReturn returns, arrive_again laid still counted arrival⟩

/-- The calls are the same ones, and each is returned to as before. -/
theorem returnToCalls_again (found : s.graph.blocks[b]? = some block) (run : Runs (returnToCalls b pc frame) s () s) :
    Runs (returnToCalls b pc frame) again () again := by
  have frames := frames_again laid counted
  unfold returnToCalls
  obtain ⟨empty, _⟩ | ⟨entry, innermost, other⟩ := runs_returnToCalls run
  · rw [empty]
    exact runs_pure.mpr ⟨rfl, rfl⟩
  · simp only [innermost, runs_bind, runs_getGraph, runs_lift, frameAt_eq_ok]
    obtain ⟨missing, _⟩ | ⟨entryFrame, holds, sites⟩ := other
    · exact ⟨_, _, ⟨rfl, rfl⟩, none, _, ⟨frames ▸ missing, rfl⟩, runs_pure.mpr ⟨rfl, rfl⟩⟩
    · refine ⟨_, _, ⟨rfl, rfl⟩, some entryFrame, _, ⟨frames ▸ holds, rfl⟩, quiet_forM fun site member => ?_⟩
      rw [counted, countValues_callSites laid] at member
      exact returnTo_again laid still counted found
        (still_forM (fun _ _ _ => moves_returnTo) still sites site member)

/-- An operation and its counted form do the same. -/
theorem step_again (found : s.graph.blocks[b]? = some block) {o : Operation} (listed : s.graph.ops[o.pc]? = some o)
    (holds : s.graph.Holds o.pc frame) {next : Frame} (run : Runs (step b o frame) s next s) :
    Runs (step b (s.graph.counted o) frame) again next again := by
  obtain ⟨executes, effect⟩ := runs_step run
  unfold step
  simp only [runs_bind, runs_liftFrame]
  refine ⟨next, again, ⟨(execute_counted listed holds).trans executes, rfl⟩, ?_⟩
  obtain ⟨reg, leaves, returned⟩ | ⟨other, _⟩ := effect
  · have same : s.graph.counted o = o := by
      rcases counted_cases listed with same | ⟨_, _, before, _⟩ | ⟨_, _, before, _⟩
      · exact same
      · cases leaves.symm.trans before
      · cases leaves.symm.trans before
    simp only [same, leaves, runs_bind]
    exact ⟨(), again, returnToCalls_again laid still counted found returned, runs_pure.mpr ⟨rfl, rfl⟩⟩
  · split
    · rename_i reg leaves
      exact absurd (instr_of_counted listed leaves nofun nofun) (other reg)
    · exact runs_pure.mpr ⟨rfl, rfl⟩

/-- By induction on the operations. -/
theorem run_again (found : s.graph.blocks[b]? = some block) {ops : List Operation}
    (listed : ∀ o ∈ ops, s.graph.ops[o.pc]? = some o) {last : Frame}
    (run : Runs (Solver.run b ops frame) s (frames, last) s) :
    Runs (Solver.run b (ops.map s.graph.counted) frame) again (frames, last) again := by
  induction ops generalizing frame frames with
  | nil =>
    obtain ⟨rfl, rfl, _⟩ := runs_run_nil run
    exact runs_pure.mpr ⟨rfl, rfl⟩
  | cons o rest ih =>
    obtain ⟨mid, mid', next, others, rfl, recorded, stepped, onward⟩ := runs_run_cons run
    -- the whole run has no effect, so neither the first operation nor the others have one
    have same := (moves_record recorded).between ((moves_step stepped).trans (moves_run onward)) still
    rw [same] at recorded stepped
    have same' := (moves_step stepped).between (moves_run onward) still
    rw [same'] at stepped onward
    have holds := still_record still recorded
    have holds' : again.graph.Holds (s.graph.counted o).pc frame := by
      rw [counted]
      exact (countValues_holds laid).mpr holds
    rw [List.map_cons]
    unfold Solver.run
    simp only [runs_bind]
    exact ⟨(), again, quiet_record holds', next, again,
      step_again laid still counted found (listed o (.head _)) holds stepped, (others, last), again,
      ih (fun o member => listed o (.tail _ member)) onward, runs_pure.mpr ⟨rfl, rfl⟩⟩

theorem follow_again {last : Frame} {edge : Edge} (run : Runs (follow frames last edge) s () s) :
    Runs (follow frames last edge) again () again := by
  obtain ⟨target, found, other⟩ := runs_follow run
  have found' : again.graph.blocks[edge.target]? = some (s.graph.countedBlock target) := by
    rw [counted]
    exact (countValues_block laid).mpr ⟨target, found, rfl⟩
  unfold follow
  simp only [runs_bind, runs_getGraph, runs_lift, block_eq_ok]
  refine ⟨_, _, ⟨rfl, rfl⟩, _, _, ⟨found', rfl⟩, ?_⟩
  obtain ⟨types, kind, catches⟩ | ⟨entry, kind, _⟩ | ⟨flow, noReturn, arrival⟩ := other
  · rw [kind]
    refine quiet_forM fun f member => ?_
    have caught := still_forM (fun _ _ _ step => moves_arrive (runs_catch step)) still catches f member
    obtain ⟨thrown, _, lifted, arrival⟩ := runs_bind.mp caught
    obtain ⟨handled, rfl⟩ := runs_liftFrame.mp lifted
    exact runs_bind.mpr ⟨thrown, again, runs_liftFrame.mpr ⟨handled, rfl⟩, arrive_again laid still counted arrival⟩
  · rw [kind]
    exact runs_pure.mpr ⟨rfl, rfl⟩
  · have arrival' := arrive_again laid still counted arrival
    cases kind : edge.kind with
    | handler types =>
      rw [kind] at flow
      cases flow
    | leaveSub entry => exact absurd kind (noReturn entry)
    | _ => exact arrival'

/-- A block whose visit has no effect has none either after its forms are chosen. -/
theorem propagate_again (run : Runs (propagate b) s () s) : Runs (propagate b) again () again := by
  have frames := frames_again laid counted
  obtain ⟨block, found, other⟩ := runs_propagate run
  have found' : again.graph.blocks[b]? = some (s.graph.countedBlock block) := by
    rw [counted]
    exact (countValues_block laid).mpr ⟨block, found, rfl⟩
  unfold propagate
  simp only [runs_bind, runs_getGraph, runs_lift, block_eq_ok, frameAt_eq_ok]
  refine ⟨_, _, ⟨rfl, rfl⟩, _, _, ⟨found', rfl⟩, ?_⟩
  obtain ⟨missing, _⟩ | ⟨entry, passed, last, mid, outs, holds, run, leaving, follows⟩ := other
  · exact ⟨none, again, ⟨frames ▸ missing, rfl⟩, runs_pure.mpr ⟨rfl, rfl⟩⟩
  · have same := (moves_run run).between (moves_forM (fun _ _ _ => moves_follow) follows) still
    rw [same] at run leaving follows
    refine ⟨some entry, again, ⟨frames ▸ holds, rfl⟩, ?_⟩
    simp only [runs_bind, runs_getGraph, runs_lift]
    refine ⟨(passed, last), again, run_again laid still counted found (fun o => laid.op_listed found) run, _, _, ⟨rfl, rfl⟩,
      outs, again, ⟨?_, rfl⟩, quiet_forM fun out member => ?_⟩
    · rw [counted]
      exact countValues_outs laid found leaving
    · exact follow_again laid still counted (still_forM (fun _ _ _ => moves_follow) still follows out member)

end Again

theorem round_quiet {s : Solver} (still : s.Still) (quiet : ∀ b ∈ s.graph.postorder, Runs (propagate b) s () s) :
    Runs round s false s := by
  obtain ⟨graph, framesChanged, edgesChanged⟩ := s
  obtain ⟨rfl, rfl⟩ := still
  unfold round
  simp only [runs_bind, runs_modify, runs_getGraph, runs_get]
  refine ⟨(), _, rfl, _, _, ⟨rfl, rfl⟩, (), ⟨graph, false, false⟩, ?_, _, _, ⟨rfl, rfl⟩, runs_pure.mpr ⟨rfl, rfl⟩⟩
  exact quiet_forM fun b member => quiet b (List.mem_reverse.mp member)

end Solver

namespace Graph

/-- To analyse a method that was analysed with success is to leave everything as it is: the second analysis succeeds
too, and frames, operations, blocks and edges are the same. -/
theorem solve_repeats {m : MethodInput} {g g' : Graph} {options : Options} (run : (Graph.ofMethod m).run = .ok (.ok g))
    (solved : g.solve options = .ok (.ok (), g')) : g'.solve options = .ok (.ok (), g') := by
  have ofMethod := (ofMethod_yields m).of_run run
  obtain ⟨params, s, started, positive, rests, rfl⟩ := ofMethod.solve_rests solved
  have laid := ofMethod.toLaid.congr rests.sound.toSameCode
  let again : Solver := ⟨s.graph.countValues, false, false⟩
  have whole : s.graph.countValues = s.graph.given s.graph.slotForms := countValues_eq laid
  -- the frame of the parameters has arrived
  obtain ⟨params', first, started', found, entered⟩ := (Solver.solution_of_still ofMethod started rests.sound rests.still
    rests.quiet).countValues laid |>.entered
  cases started.symm.trans started'
  -- no block has an effect, so that the first round is the last
  have round : Solver.Runs Solver.round again false again := by
    refine Solver.round_quiet ⟨rfl, rfl⟩ fun b member => ?_
    change b ∈ s.graph.countValues.postorder at member
    rw [whole] at member
    exact Solver.propagate_again laid rests.still rfl (rests.quiet b ((rests.listed b).mp member))
  have rounds : Solver.Runs (Solver.rounds options.maxRounds options.maxRounds) again () again := by
    obtain ⟨left, limit⟩ := Nat.exists_eq_succ_of_ne_zero (Nat.ne_of_gt positive)
    rw [limit]
    exact Solver.runs_bind.mpr ⟨false, again, round, Solver.runs_pure.mpr ⟨rfl, rfl⟩⟩
  have info : s.graph.countValues.info = m.info := by
    rw [whole]
    exact laid.info
  refine solve_eq_ok.mpr ⟨info ▸ ofMethod.fits solved, again, ?_, rfl⟩
  change Solver.Runs _ _ _ _
  simp only [analysis, Solver.runs_bind, Solver.runs_liftFrame, Solver.runs_lift, Solver.runs_modify, block_eq_ok]
  refine ⟨params, again, ⟨by rw [info]; exact started, rfl⟩, first, again, ⟨found, rfl⟩, (), again,
    Solver.quiet_arrive entered, (), again, rounds, ?_⟩
  simp only [again, countValues_countValues laid]

theorem solve_repeats_cleanup : ∃ g g', (Graph.ofMethod cleanup).run = .ok (.ok g) ∧
    g.solve {} = .ok (.ok (), g') ∧ g'.solve {} = .ok (.ok (), g') := by
  obtain ⟨g, g', run, solved⟩ := solves_of_isSome (show (solved? cleanup {}).isSome by decide +kernel)
  exact ⟨g, g', run, solved, solve_repeats run solved⟩

end Graph

end Unstack
